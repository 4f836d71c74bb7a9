import MirrorRust.Framing

/-! A protocol session over one connection. The connection is given by what its reads, writes and
shutdowns will return, whatever the peer and the operating system do; what fails, fails with an
I/O error. -/
namespace MirrorRust

/-- The errors of the client itself: it has refused a line, or the connection has failed. -/
def Error.Local : Error → Prop
  | .invalidArgument _ | .transportClosed | .io _ => True
  | _ => False

theorem validateProtocolLine_local {line : String} {e : Error}
    (h : validateProtocolLine line = .error e) : e.Local := by
  unfold validateProtocolLine at h
  split_ifs at h <;> cases h <;> trivial

/-- The connection under a transport. -/
structure Connection where
  /-- What the calls of `read_protocol_line` return, in order; after that, the end of the file. -/
  incoming : List (Except String (Option String))
  /-- What the calls of `write_protocol_line` return, in order; after that, success. -/
  writes : List (Except String Unit)
  /-- What closing the connection returns, in order; after that, the code zero. -/
  shutdowns : List (Except String ℤ)
  /-- The lines given to the writer. -/
  sent : List String

namespace Connection

def read (c : Connection) : Except Error (Option String) × Connection :=
  match c.incoming with
  | [] => (.ok none, c)
  | .ok line :: incoming => (.ok line, { c with incoming := incoming })
  | .error e :: incoming => (.error (.io e), { c with incoming := incoming })

def write (c : Connection) (line : String) : Except Error Unit × Connection :=
  match c.writes with
  | [] => (.ok (), { c with sent := c.sent ++ [line] })
  | .ok () :: writes => (.ok (), { c with writes := writes, sent := c.sent ++ [line] })
  | .error e :: writes =>
    (.error (.io e), { c with writes := writes, sent := c.sent ++ [line] })

def shutdown (c : Connection) : Except Error ℤ × Connection :=
  match c.shutdowns with
  | [] => (.ok 0, c)
  | .ok code :: shutdowns => (.ok code, { c with shutdowns := shutdowns })
  | .error e :: shutdowns => (.error (.io e), { c with shutdowns := shutdowns })

theorem write_local {c : Connection} {line : String} {e : Error}
    (h : (c.write line).1 = .error e) : e.Local := by
  unfold write at h
  split at h <;> cases h
  trivial

@[simp] theorem write_incoming (c : Connection) (line : String) :
    (c.write line).2.incoming = c.incoming := by
  unfold write
  split <;> rfl

@[simp] theorem write_sent (c : Connection) (line : String) :
    (c.write line).2.sent = c.sent ++ [line] := by
  unfold write
  split <;> rfl

@[simp] theorem shutdown_incoming (c : Connection) : c.shutdown.2.incoming = c.incoming := by
  unfold shutdown
  split <;> rfl

@[simp] theorem shutdown_sent (c : Connection) : c.shutdown.2.sent = c.sent := by
  unfold shutdown
  split <;> rfl

end Connection

structure Transport where
  inner : Connection
  closed : Bool
  closeCode : Option ℤ
  asyncCapable : Bool
  /-- The panic of the observer at a line, if it panics. -/
  observer : String → Option String
  /-- The lines given to the observer. -/
  received : List String
  code_closed : closeCode ≠ none → closed = true

namespace Transport

def send (t : Transport) (line : String) : Except Error Unit × Transport :=
  match validateProtocolLine line with
  | .error e => (.error e, t)
  | .ok () =>
    if t.closed then (.error .transportClosed, t)
    else
      let (result, inner) := t.inner.write line
      (result, { t with inner := inner })

def recv (t : Transport) : Except (Fault Error) (Option String) × Transport :=
  if t.closed then (.error (.error .transportClosed), t)
  else
    let (result, inner) := t.inner.read
    let t := { t with inner := inner }
    match result with
    | .ok (some line) =>
      let t := { t with received := t.received ++ [line] }
      match t.observer line with
      | some message => (.error (.panic message), t)
      | none => (.ok (some line), t)
    | .ok none => (.ok none, t)
    | .error e => (.error (.error e), t)

/-- Close the transport; the second call of a successful close does nothing. -/
def close (t : Transport) : Except Error ℤ × Transport :=
  match t.closeCode with
  | some code => (.ok code, t)
  | none =>
    let (result, inner) := t.inner.shutdown
    (result, { t with
      inner := inner
      closed := true
      closeCode := result.toOption
      code_closed := fun _ => rfl })

/-! ### What the operations leave -/

variable {t : Transport}

@[simp] theorem close_incoming (t : Transport) :
    t.close.2.inner.incoming = t.inner.incoming := by
  unfold close
  split <;> simp

@[simp] theorem close_sent (t : Transport) : t.close.2.inner.sent = t.inner.sent := by
  unfold close
  split <;> simp

@[simp] theorem close_received (t : Transport) : t.close.2.received = t.received := by
  unfold close
  split <;> rfl

@[simp] theorem close_closed (t : Transport) : t.close.2.closed = true := by
  unfold close
  split
  · rename_i code hcode
    exact t.code_closed (by simp [hcode])
  · rfl

/-- A line is refused before anything is written, or it is given to the writer. -/
theorem send_cases (t : Transport) (line : String) :
    (∃ e, t.send line = (.error e, t) ∧ e.Local) ∨
      t.closed = false ∧ validateProtocolLine line = .ok () ∧
        t.send line = ((t.inner.write line).1, { t with inner := (t.inner.write line).2 }) := by
  unfold send
  cases hline : validateProtocolLine line with
  | error e => exact Or.inl ⟨e, rfl, validateProtocolLine_local hline⟩
  | ok u =>
    by_cases hclosed : t.closed = true
    · rw [if_pos hclosed]
      exact Or.inl ⟨_, rfl, trivial⟩
    · rw [if_neg hclosed]
      exact Or.inr ⟨by simpa using hclosed, rfl, rfl⟩

theorem recv_closed (h : t.closed = true) :
    t.recv = (.error (.error .transportClosed), t) := by
  rw [recv, if_pos h]

end Transport
end MirrorRust
