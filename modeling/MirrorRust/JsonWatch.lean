import MirrorRust.JsonPanics

/-! The parser under watch: each position of the cursor, each slice of the text and each entry to
a value is recorded, also on the way to an error. -/
namespace MirrorRust

/-- What is recorded: where the cursor moved to, which bytes were sliced, and how many calls of
`value` are open at the start of one. -/
inductive ParseEvent
  | moved (cursor : ℕ)
  | sliced (start stop : ℕ)
  | called (frames : ℕ)

structure Watcher where
  parser : Parser
  frames : ℕ
  events : List ParseEvent

abbrev Watch := ExceptT (Fault String) (StateM Watcher)

namespace Watch

/-- An action of the parser that neither moves the cursor nor slices the text. -/
def lift {α : Type} (x : Parse α) : Watch α := fun w =>
  match x w.parser with
  | .ok (a, p) => (.ok a, { w with parser := p })
  | .error e => (.error e, w)

def emit (event : ParseEvent) : Watch Unit := fun w =>
  (.ok (), { w with events := w.events ++ [event] })

def peek : Watch (Option UInt8) := lift Parser.peek

def error {α : Type} (message : String) : Watch α := lift (Parser.error message)

def bump (n : ℕ) : Watch Unit := do
  lift (Parser.bump n)
  emit (.moved (← lift get).cursor)

def cut (start stop : ℕ) : Watch (List Char) := do
  emit (.sliced start stop)
  lift (Parser.cut start stop)

/-- Run `value` with one more call open. -/
def call {α : Type} (x : Watch α) : Watch α := do
  modify fun w => { w with frames := w.frames + 1 }
  emit (.called (← get).frames)
  let a ← x
  modify fun w => { w with frames := w.frames - 1 }
  return a

/-- Move over the bytes that satisfy `f`, one at a time. -/
def skipBytes (f : UInt8 → Bool) : List UInt8 → Watch Unit
  | [] => return
  | byte :: bytes => do
    if f byte then
      bump 1
      skipBytes f bytes

def skipWhile (f : UInt8 → Bool) : Watch Unit := do
  let p ← lift get
  skipBytes f ((utf8 p.text).drop p.cursor)

def skipWs : Watch Unit := skipWhile Parser.isSpace

/-- The loop of `string` over the bytes that are left. -/
def scan : List UInt8 → Watch Unit
  | [] => error "unterminated string"
  | byte :: bytes =>
    if byte = 0x22 then bump 1
    else if byte = 0x5c then
      match bytes with
      | [] => do
        bump 1
        error "unterminated string"
      | _ :: bytes => do
        bump 2
        scan bytes
    else if byte ≤ 0x1f then error "unescaped control character in string"
    else do
      bump 1
      scan bytes

def string : Watch String := do
  let start := (← lift get).cursor
  bump 1
  let p ← lift get
  scan ((utf8 p.text).drop p.cursor)
  match decodeToken (← cut start (← lift get).cursor) with
  | some s => return s
  | none => error "invalid string token"

def digits (message : String) : Watch Unit := do
  match ← peek with
  | some b => if Parser.isDigit b then skipWhile Parser.isDigit else error message
  | none => error message

def minus : Watch Unit := do
  if (← peek) = some 0x2d then bump 1

def intPart : Watch Unit := do
  if (← peek) = some 0x30 then
    bump 1
    if (← peek).any Parser.isDigit then error "invalid number integer part"
  else digits "invalid number integer part"

def fracPart : Watch Unit := do
  if (← peek) = some 0x2e then
    bump 1
    digits "fraction requires at least one digit"

def expSign : Watch Unit := do
  if (← peek) = some 0x2b ∨ (← peek) = some 0x2d then bump 1

def expPart : Watch Unit := do
  if (← peek) = some 0x65 ∨ (← peek) = some 0x45 then
    bump 1
    expSign
    digits "exponent requires at least one digit"

def numberBody : Watch Unit := do
  minus
  intPart
  fracPart
  expPart

def number : Watch Json := do
  let start := (← lift get).cursor
  numberBody
  return .number (String.ofList (← cut start (← lift get).cursor))

def literal (word : String) : Watch Unit := do
  let p ← lift get
  emit (.sliced p.cursor (utf8 p.text).length)
  match dropBytes p.text p.cursor with
  | none => throw (.panic "byte index is not a char boundary")
  | some rest =>
    if word.toList.isPrefixOf rest then bump word.utf8ByteSize
    else error ("expected '" ++ word ++ "'")

def enter (depth : ℕ) : Watch Unit := lift (Parser.enter depth)

mutual

def value (fuel depth : ℕ) : Watch Json :=
  match fuel with
  | 0 => throw (.panic "recursion bound")
  | fuel + 1 => call do
    skipWs
    lift (modify Parser.tick)
    let p ← lift get
    if p.nodes > p.limits.maxNodes then error ("JSON nodes exceed " ++ toString p.limits.maxNodes)
    else
      let next ← peek
      if next = some 0x7b then
        enter depth
        object fuel (depth + 1)
      else if next = some 0x5b then
        enter depth
        array fuel (depth + 1)
      else if next = some 0x22 then return .string (← string)
      else if next = some 0x74 then
        literal "true"
        return .bool true
      else if next = some 0x66 then
        literal "false"
        return .bool false
      else if next = some 0x6e then
        literal "null"
        return .null
      else if next = some 0x2d ∨ next.any Parser.isDigit then number
      else error "expected a JSON value"

def array (fuel depth : ℕ) : Watch Json :=
  match fuel with
  | 0 => throw (.panic "recursion bound")
  | fuel + 1 => do
    bump 1
    skipWs
    if (← peek) = some 0x5d then
      bump 1
      return .array []
    else elements fuel depth []

def elements (fuel depth : ℕ) (values : List Json) : Watch Json :=
  match fuel with
  | 0 => throw (.panic "recursion bound")
  | fuel + 1 => do
    let values := (← value fuel depth) :: values
    skipWs
    let next ← peek
    if next = some 0x2c then
      bump 1
      elements fuel depth values
    else if next = some 0x5d then
      bump 1
      return .array values.reverse
    else error "expected ',' or ']'"

def object (fuel depth : ℕ) : Watch Json :=
  match fuel with
  | 0 => throw (.panic "recursion bound")
  | fuel + 1 => do
    bump 1
    skipWs
    if (← peek) = some 0x7d then
      bump 1
      return .object []
    else members fuel depth .empty []

def members (fuel depth : ℕ) (values : OrderedMap String Json) (keys : List String) : Watch Json :=
  match fuel with
  | 0 => throw (.panic "recursion bound")
  | fuel + 1 => do
    skipWs
    if (← peek) = some 0x22 then
      let key ← string
      let p ← lift get
      if p.limits.rejectDuplicateKeys ∧ key ∈ keys then
        error ("duplicate object key '" ++ key ++ "'")
      else
        skipWs
        if (← peek) = some 0x3a then
          bump 1
          let item ← value fuel depth
          skipWs
          let next ← peek
          if next = some 0x2c then
            bump 1
            members fuel depth (values.insert key item) (key :: keys)
          else if next = some 0x7d then
            bump 1
            return .object (values.insert key item).entries
          else error "expected ',' or '\x7d'"
        else error "expected ':' after object key"
    else error "object key must be a string"

end

/-- One value, and nothing after it. -/
def document (text : List Char) : Watch Json := do
  let value ← value (3 * (utf8 text).length + 3) 0
  skipWs
  let p ← lift get
  if p.cursor ≠ (utf8 text).length then error "trailing characters after JSON value"
  else return value

end Watch

/-- `parse` under watch: its result, and what was recorded. -/
def watchParse (text : String) (limits : Limits) : Except (Fault String) Json × List ParseEvent :=
  let size := (utf8 text.toList).length
  if size > limits.maxBytes then
    (.error (.error ("JSON payload exceeds " ++ toString limits.maxBytes ++ " bytes")), [])
  else
    let run := Watch.document text.toList ⟨⟨text.toList, 0, 0, limits⟩, 0, []⟩
    (run.1, run.2.events)

/-! ### What the watcher sees -/

/-- The cursor is within the text, a slice is between character boundaries of the text, and calls
of `value` are nested no deeper than one above the depth limit. -/
def ParseEvent.Fine (text : List Char) (limits : Limits) : ParseEvent → Prop
  | .moved cursor => cursor ≤ (utf8 text).length
  | .sliced start stop => ∃ before token after, text = before ++ (token ++ after) ∧
      start = (utf8 before).length ∧ stop = (utf8 (before ++ token)).length
  | .called frames => frames ≤ limits.maxDepth + 1

namespace Watch

/-- The parser works on this text within these limits, and its cursor is not past the end. -/
structure Sane (text : List Char) (limits : Limits) (p : Parser) : Prop where
  text_eq : p.text = text
  limits_eq : p.limits = limits
  cursor_le : p.cursor ≤ (utf8 text).length

section
variable {text : List Char} {limits : Limits} {α β : Type} {x : Watch α} {f : α → Watch β}
  {y : Parse α} {g : α → Parse β} {n : ℕ} {p q : Parser} {rest : List Char} {a : α}

/-- Under watch, with `n` calls open, the action gives what the parser gives, and all that it
records is fine. -/
def Tracks (text : List Char) (limits : Limits) (n : ℕ) (x : Watch α) (y : Parse α) (p : Parser) :
    Prop :=
  ∀ events, (∀ e ∈ events, ParseEvent.Fine text limits e) →
    ∃ events', (∀ e ∈ events', ParseEvent.Fine text limits e) ∧
      match y p with
      | .ok (a, q) => x ⟨p, n, events⟩ = (.ok a, ⟨q, n, events'⟩) ∧ Sane text limits q
      | .error e => ∃ q m, x ⟨p, n, events⟩ = (.error e, ⟨q, m, events'⟩)

theorem run_bind (w : Watcher) : (x >>= f) w =
    match x w with
    | (.ok a, w') => f a w'
    | (.error e, w') => (.error e, w') := by
  rcases h : x w with ⟨⟨e⟩ | ⟨a⟩, w'⟩ <;>
    simp only [bind, ExceptT.bind, ExceptT.mk, StateT.bind, h] <;> rfl

theorem run_next {w w' : Watcher} (h : x w = (.ok a, w')) : (x >>= f) w = f a w' := by
  rw [run_bind, h]

theorem tracks_bind (hx : Tracks text limits n x y p)
    (hf : ∀ a q, y p = .ok (a, q) → Sane text limits q → Tracks text limits n (f a) (g a) q) :
    Tracks text limits n (x >>= f) (y >>= g) p := by
  intro events hevents
  obtain ⟨events', hevents', hrun⟩ := hx events hevents
  rw [Parser.run_bind]
  cases hy : y p with
  | error e =>
    rw [hy] at hrun
    obtain ⟨q, m, hrun⟩ := hrun
    refine ⟨events', hevents', q, m, ?_⟩
    rw [run_bind, hrun]
  | ok r =>
    rw [hy] at hrun
    obtain ⟨hrun, hsane⟩ := hrun
    obtain ⟨events'', hevents'', hnext⟩ := hf r.1 r.2 hy hsane events' hevents'
    refine ⟨events'', hevents'', ?_⟩
    simp only [run_bind, hrun]
    exact hnext

theorem tracks_next (hx : Tracks text limits n x y p) (hy : y p = .ok (a, q))
    (hf : Sane text limits q → Tracks text limits n (f a) (g a) q) :
    Tracks text limits n (x >>= f) (y >>= g) p := by
  refine tracks_bind hx fun b r hr hsane => ?_
  obtain ⟨rfl, rfl⟩ : a = b ∧ q = r := by simpa using hy.symm.trans hr
  exact hf hsane

theorem tracks_ite {P : Prop} [Decidable P] {x' : Watch α} {y' : Parse α}
    (hx : P → Tracks text limits n x y p) (hy : ¬ P → Tracks text limits n x' y' p) :
    Tracks text limits n (if P then x else x') (if P then y else y') p := by
  by_cases h : P
  · rw [if_pos h, if_pos h]
    exact hx h
  · rw [if_neg h, if_neg h]
    exact hy h

/-- An action of the parser that is fine with the watcher. -/
theorem tracks_lift (h : ∀ a q, y p = .ok (a, q) → Sane text limits q) :
    Tracks text limits n (lift y) y p := by
  intro events hevents
  refine ⟨events, hevents, ?_⟩
  cases hy : y p with
  | error e => exact ⟨p, n, by simp only [lift, hy]⟩
  | ok r => exact ⟨by simp only [lift, hy], h r.1 r.2 hy⟩

theorem tracks_error (message : String) :
    Tracks text limits n (error message : Watch α) (Parser.error message) p :=
  tracks_lift nofun

theorem tracks_pure (hp : Sane text limits p) (a : α) :
    Tracks text limits n (pure a) (pure a) p :=
  fun events hevents => ⟨events, hevents, rfl, hp⟩

theorem tracks_get (hp : Sane text limits p) {f : Parser → Watch β} {g : Parser → Parse β}
    (hf : Tracks text limits n (f p) (g p) p) :
    Tracks text limits n (lift get >>= f) (get >>= g) p :=
  tracks_next (a := p) (q := p) (tracks_lift (by rintro a q ⟨⟩; exact hp)) rfl fun _ => hf

/-- A record that the parser does not have. -/
theorem tracks_emit {event : ParseEvent} (he : event.Fine text limits)
    (hx : Tracks text limits n x y p) :
    Tracks text limits n (emit event >>= fun _ => x) y p := by
  intro events hevents
  obtain ⟨events', hevents', hrun⟩ := hx (events ++ [event]) fun e hmem => by
    rcases List.mem_append.mp hmem with hmem | hmem
    · exact hevents e hmem
    · rw [List.mem_singleton.mp hmem]
      exact he
  exact ⟨events', hevents', by simpa only [run_bind, emit] using hrun⟩

theorem tracks_peek (hp : Sane text limits p) {f : Option UInt8 → Watch β}
    {g : Option UInt8 → Parse β}
    (hf : ∀ next, next = (utf8 text)[p.cursor]? → Tracks text limits n (f next) (g next) p) :
    Tracks text limits n (peek >>= f) (Parser.peek >>= g) p := by
  have hpeek : Parser.peek p = .ok ((utf8 text)[p.cursor]?, p) := by
    rw [← hp.text_eq]
    rfl
  exact tracks_next (tracks_lift fun a q h => by rw [hpeek] at h; cases h; exact hp) hpeek
    fun _ => hf _ rfl

theorem tracks_bump {k : ℕ} (hp : Sane text limits p)
    (hk : p.cursor + k ≤ (utf8 text).length) :
    Tracks text limits n (bump k) (Parser.bump k) p := by
  intro events hevents
  refine ⟨events ++ [.moved (p.cursor + k)], fun e hmem => ?_, rfl, hp.text_eq, hp.limits_eq, hk⟩
  rcases List.mem_append.mp hmem with hmem | hmem
  · exact hevents e hmem
  · rw [List.mem_singleton.mp hmem]
    exact hk

/-- After a byte that was seen. -/
theorem tracks_step (hp : Sane text limits p) {b : UInt8}
    (hb : some b = (utf8 text)[p.cursor]?) :
    Tracks text limits n (bump 1) (Parser.bump 1) p := by
  have hlt : p.cursor < (utf8 text).length := (List.getElem?_eq_some_iff.mp hb.symm).1
  exact tracks_bump hp hlt

theorem bump_run (k : ℕ) (p : Parser) :
    Parser.bump k p = .ok ((), { p with cursor := p.cursor + k }) := rfl

theorem tracks_congr {z : Parse α} (hy : y p = z p) (hx : Tracks text limits n x z p) :
    Tracks text limits n x y p := by
  intro events hevents
  rw [hy]
  exact hx events hevents

/-! ### Loops over the bytes that are left -/

/-- The bytes that are left at the cursor. -/
theorem left_length (hp : Sane text limits p) :
    p.cursor + ((utf8 p.text).drop p.cursor).length = (utf8 text).length := by
  rw [List.length_drop, hp.text_eq, Nat.add_sub_cancel' hp.cursor_le]

theorem tracks_skipBytes (h : UInt8 → Bool) {bytes : List UInt8} (hp : Sane text limits p)
    (hleft : p.cursor + bytes.length ≤ (utf8 text).length) :
    Tracks text limits n (skipBytes h bytes)
      (modify fun p => { p with cursor := p.cursor + (bytes.takeWhile h).length }) p := by
  induction bytes generalizing p with
  | nil => exact tracks_pure hp ()
  | cons byte bytes ih =>
    rw [List.length_cons] at hleft
    by_cases hbyte : h byte = true
    · rw [skipBytes, if_pos hbyte]
      refine tracks_congr (z := Parser.bump 1 >>= fun _ => modify fun p =>
        { p with cursor := p.cursor + (bytes.takeWhile h).length }) ?_
        (tracks_next (tracks_bump hp (by omega)) (bump_run 1 p) fun hq => ih hq ?_)
      · simp only [List.takeWhile_cons, if_pos hbyte, List.length_cons, Parser.run_bind, bump_run,
          Except.bind]
        simp only [modify, modifyGet, MonadStateOf.modifyGet, StateT.modifyGet, pure, Except.pure,
          Nat.add_assoc, Nat.add_comm 1]
      · simp only
        omega
    · rw [skipBytes, if_neg hbyte]
      refine tracks_congr (z := pure ()) ?_ (tracks_pure hp ())
      simp only [List.takeWhile_cons, if_neg hbyte]
      rfl

theorem tracks_skipWhile (h : UInt8 → Bool) (hp : Sane text limits p) :
    Tracks text limits n (skipWhile h) (Parser.skipWhile h) p :=
  tracks_congr (z := get >>= fun q => modify fun p =>
      { p with cursor := p.cursor + (((utf8 q.text).drop q.cursor).takeWhile h).length }) rfl
    (tracks_get hp (tracks_skipBytes h hp (left_length hp).le))

/-- The loop of `string` as an action. -/
def scanned (bytes : List UInt8) : Parse Unit := fun p =>
  match Parser.scanString bytes p.cursor with
  | .error (cursor, message) => Parser.error message { p with cursor := cursor }
  | .ok cursor => .ok ((), { p with cursor := cursor })

theorem string_eq : Parser.string = (do
    let start := (← get).cursor
    Parser.bump 1
    let p ← get
    scanned ((utf8 p.text).drop p.cursor)
    match decodeToken (← Parser.cut start (← get).cursor) with
    | some s => return s
    | none => Parser.error "invalid string token") := by
  funext p
  simp only [Parser.string, Parser.run_bind, scanned, bump_run, get, getThe, MonadStateOf.get,
    StateT.get, pure, Except.pure, Except.bind]
  cases Parser.scanString ((utf8 p.text).drop (p.cursor + 1)) (p.cursor + 1) with
  | error e => rfl
  | ok cursor => rfl

theorem tracks_scan {bytes : List UInt8} (hp : Sane text limits p)
    (hleft : p.cursor + bytes.length ≤ (utf8 text).length) :
    Tracks text limits n (scan bytes) (scanned bytes) p := by
  induction hlength : bytes.length using Nat.strong_induction_on generalizing bytes p with
  | _ length ih =>
    match bytes with
    | [] => exact tracks_congr (z := Parser.error "unterminated string") rfl (tracks_error _)
    | byte :: bytes =>
      rw [List.length_cons] at hleft hlength
      rw [scan.eq_def]
      dsimp only
      split_ifs with hquote hslash hcontrol
      · refine tracks_congr ?_ (tracks_bump hp (by omega))
        rw [scanned, Parser.scan_cons, if_pos hquote]
        rfl
      · match bytes with
        | [] =>
          refine tracks_congr (z := Parser.bump 1 >>= fun _ =>
            Parser.error "unterminated string") ?_
            (tracks_bind (tracks_bump hp (by simpa using hleft)) fun _ _ _ _ => tracks_error _)
          simp only [scanned, Parser.scanString, if_neg hquote, if_pos hslash]
          rfl
        | _ :: bytes =>
          simp only [List.length_cons] at hleft hlength
          refine tracks_congr (z := Parser.bump 2 >>= fun _ => scanned bytes) ?_
            (tracks_next (tracks_bump hp (by omega)) (bump_run 2 p) fun hq =>
              ih bytes.length (by omega) hq (by simp only; omega) rfl)
          simp only [scanned, Parser.scanString, if_neg hquote, if_pos hslash]
          rfl
      · refine tracks_congr ?_ (tracks_error _)
        rw [scanned, Parser.scan_cons, if_neg hquote, if_neg hslash, if_pos hcontrol]
      · refine tracks_congr (z := Parser.bump 1 >>= fun _ => scanned bytes) ?_
          (tracks_next (tracks_bump hp (by omega)) (bump_run 1 p) fun hq =>
            ih bytes.length (by omega) hq (by simp only; omega) rfl)
        rw [scanned, Parser.scan_cons, if_neg hquote, if_neg hslash, if_neg hcontrol]
        rfl

/-! ### Tokens -/

theorem tracks_digits (message : String) (hp : Sane text limits p) :
    Tracks text limits n (digits message) (Parser.digits message) p := by
  refine tracks_peek hp fun b _ => ?_
  cases b with
  | none => exact tracks_error message
  | some b => exact tracks_ite (fun _ => tracks_skipWhile _ hp) fun _ => tracks_error message

theorem tracks_minus (hp : Sane text limits p) : Tracks text limits n minus Parser.minus p :=
  tracks_peek hp fun _ hnext => tracks_ite
    (fun hminus => tracks_step hp (hminus.symm.trans hnext)) fun _ => tracks_pure hp ()

theorem tracks_intPart (hp : Sane text limits p) :
    Tracks text limits n intPart Parser.intPart p := by
  rw [Parser.intPart_eq]
  refine tracks_peek hp fun next hnext => tracks_ite (fun hzero => ?_) fun _ => tracks_digits _ hp
  refine tracks_bind (tracks_step hp (hzero.symm.trans hnext)) fun _ q _ hq => ?_
  exact tracks_peek hq fun _ _ => tracks_ite (fun _ => tracks_error _) fun _ => tracks_pure hq ()

theorem tracks_fracPart (hp : Sane text limits p) :
    Tracks text limits n fracPart Parser.fracPart p := by
  refine tracks_peek hp fun next hnext => tracks_ite (fun hdot => ?_) fun _ => tracks_pure hp ()
  exact tracks_bind (tracks_step hp (hdot.symm.trans hnext)) fun _ q _ hq => tracks_digits _ hq

theorem step_of_either {next next' : Option UInt8} {b c : UInt8} {k : ℕ}
    (h : next = (utf8 text)[k]?) (h' : next' = (utf8 text)[k]?)
    (hor : next = some b ∨ next' = some c) : ∃ d, some d = (utf8 text)[k]? := by
  rcases hor with hb | hc
  · exact ⟨b, hb.symm.trans h⟩
  · exact ⟨c, hc.symm.trans h'⟩

theorem tracks_expSign (hp : Sane text limits p) :
    Tracks text limits n expSign Parser.expSign p := by
  refine tracks_peek hp fun next hnext => tracks_peek hp fun next' hnext' =>
    tracks_ite (fun hsign => ?_) fun _ => tracks_pure hp ()
  obtain ⟨b, hb⟩ := step_of_either hnext hnext' hsign
  exact tracks_step hp hb

theorem tracks_expPart (hp : Sane text limits p) :
    Tracks text limits n expPart Parser.expPart p := by
  refine tracks_peek hp fun next hnext => tracks_peek hp fun next' hnext' =>
    tracks_ite (fun hexp => ?_) fun _ => tracks_pure hp ()
  obtain ⟨b, hb⟩ := step_of_either hnext hnext' hexp
  refine tracks_bind (tracks_step hp hb) fun _ q _ hq => ?_
  exact tracks_bind (tracks_expSign hq) fun _ r _ hr => tracks_digits _ hr

theorem tracks_numberBody (hp : Sane text limits p) :
    Tracks text limits n numberBody Parser.numberBody p :=
  tracks_bind (tracks_minus hp) fun _ _ _ hq => tracks_bind (tracks_intPart hq) fun _ _ _ hr =>
    tracks_bind (tracks_fracPart hr) fun _ _ _ hs => tracks_expPart hs

/-- A token is sliced between the characters around it. -/
theorem tracks_cut {token : List Char} (hp : Sane text limits p) (hat : p.At (token ++ rest))
    (hq : Sane text limits q) :
    Tracks text limits n (cut p.cursor (p.cursor + (utf8 token).length))
      (Parser.cut p.cursor (p.cursor + (utf8 token).length)) q := by
  have hcut := hat.cut (q := q) (hq.text_eq.trans hp.text_eq.symm)
  obtain ⟨before, htext, hcursor⟩ := hat
  refine tracks_emit ⟨before, token, rest, hp.text_eq.symm.trans htext, hcursor, ?_⟩
    (tracks_lift fun a r hr => ?_)
  · rw [hcursor, utf8_append, List.length_append]
  · rw [hcut] at hr
    cases hr
    exact hq

theorem tracks_number (hp : Sane text limits p) (hat : p.At rest) :
    Tracks text limits n number Parser.number p := by
  have hnumber : Parser.number =
      (get >>= fun s => Parser.numberBody >>= fun _ => Parser.numberToken s.cursor) := by
    simp only [Parser.number_eq, Parser.numberBody, bind_assoc]
  rw [hnumber]
  refine tracks_get hp (tracks_bind (tracks_numberBody hp) fun _ q hq hsane => tracks_get hsane ?_)
  obtain ⟨token, rest', rfl, -, rfl⟩ := Parser.numberBody_accepts.sound hat hq
  exact tracks_bind (tracks_cut hp hat hsane) fun a r _ hr => tracks_pure hr _

theorem tracks_literal (word : String) (hp : Sane text limits p) (hat : p.At rest) :
    Tracks text limits n (literal word) (Parser.literal word) p := by
  obtain ⟨before, htext, hcursor⟩ := hat
  have htext' : text = before ++ rest := hp.text_eq.symm.trans htext
  refine tracks_get hp (tracks_emit ⟨before, rest, [], by simpa using htext', hcursor, ?_⟩ ?_)
  · rw [hp.text_eq, htext']
  · have hdrop : dropBytes p.text p.cursor = some rest := by
      rw [htext, hcursor, dropBytes_utf8]
    rw [hdrop]
    refine tracks_ite (fun hword => tracks_bump hp ?_) fun _ => tracks_error _
    obtain ⟨after, hafter⟩ := List.isPrefixOf_iff_prefix.mp hword
    rw [htext', hcursor, utf8_append, List.length_append, ← hafter, utf8_append,
      List.length_append, length_utf8]
    omega

theorem tracks_string (hp : Sane text limits p) (hat : p.At ('\"' :: rest)) :
    Tracks text limits n string Parser.string p := by
  have hrest : (p.move ['\"']).At rest := hat.move_one
  have hmove : p.move ['\"'] = { p with cursor := p.cursor + 1 } := by
    rw [Parser.move, utf8_cons, encodeChar_ascii (c := '\"') (by decide)]
    rfl
  rw [hmove] at hrest
  have hroom : p.cursor + 1 ≤ (utf8 text).length := by
    obtain ⟨before, htext, hcursor⟩ := hat
    rw [← hp.text_eq, htext, hcursor, utf8_append, List.length_append, utf8_cons,
      encodeChar_ascii (c := '\"') (by decide), List.length_append, List.length_singleton]
    omega
  rw [string_eq]
  refine tracks_get hp (tracks_next (tracks_bump hp hroom) (bump_run 1 p) fun hq => ?_)
  refine tracks_get hq (tracks_bind (tracks_scan hq (left_length hq).le) fun _ r hr hsane => ?_)
  rw [hrest.bytes] at hr
  -- the scan has gone over whole characters when it stops at the closing quote
  cases hscan : Parser.scanString (utf8 rest) (p.cursor + 1) with
  | error e =>
    simp only [scanned, hscan] at hr
    exact absurd hr Parser.error_ne_ok
  | ok stop =>
    obtain ⟨content, rest', rfl, -, rfl⟩ := Parser.scan_sound hscan
    simp only [scanned, hscan, Except.ok.injEq, Prod.mk.injEq, true_and] at hr
    subst hr
    have hsize : p.cursor + 1 + (utf8 content).length =
        p.cursor + (utf8 ('\"' :: content)).length := by
      rw [utf8_cons, encodeChar_ascii (by decide), List.length_append, List.length_singleton]
      omega
    refine tracks_get hsane ?_
    simp only [hsize]
    refine tracks_bind (tracks_cut hp hat ?_) fun token s _ hs => ?_
    · simpa [hsize] using hsane
    · cases decodeToken token with
      | none => exact tracks_error _
      | some s => exact tracks_pure hs s

theorem tracks_enter (depth : ℕ) (hp : Sane text limits p) :
    Tracks text limits n (enter depth) (Parser.enter depth) p :=
  tracks_lift fun a q h => by
    obtain ⟨-, ⟨⟩⟩ := Parser.enter_ok.mp h
    exact hp

end

/-! ### Values -/

section
variable {text : List Char} {limits : Limits}

/-- With `n` calls open. A call of `value` at depth `depth` is the one after `depth` others. -/
def TracksValue (text : List Char) (limits : Limits) (fuel : ℕ) : Prop :=
  ∀ {depth : ℕ} {p : Parser} {rest : List Char}, Sane text limits p → p.At rest →
    depth ≤ limits.maxDepth → Tracks text limits depth (value fuel depth) (Parser.value fuel depth) p

def TracksElements (text : List Char) (limits : Limits) (fuel : ℕ) : Prop :=
  ∀ {depth : ℕ} {values : List Json} {p : Parser} {rest : List Char}, Sane text limits p →
    p.At rest → depth ≤ limits.maxDepth →
    Tracks text limits depth (elements fuel depth values) (Parser.elements fuel depth values) p

def TracksMembers (text : List Char) (limits : Limits) (fuel : ℕ) : Prop :=
  ∀ {depth : ℕ} {values : OrderedMap String Json} {keys : List String} {p : Parser}
    {rest : List Char}, Sane text limits p → p.At rest → depth ≤ limits.maxDepth →
    Tracks text limits depth (members fuel depth values keys)
      (Parser.members fuel depth values keys) p

variable {fuel depth n : ℕ} {p : Parser} {rest : List Char}

theorem tracks_panic {α : Type} (message : String) :
    Tracks text limits n (throw (.panic message) : Watch α) (throw (.panic message)) p :=
  fun events hevents => ⟨events, hevents, p, n, rfl⟩

theorem tracks_skipWs (hp : Sane text limits p) :
    Tracks text limits n skipWs Parser.skipWs p := tracks_skipWhile _ hp

/-- The next byte, in front of `rest`. -/
theorem tracks_peek_at {β : Type} (hp : Sane text limits p) (hat : p.At rest)
    {f : Option UInt8 → Watch β} {g : Option UInt8 → Parse β}
    (hf : ∀ next, next = (utf8 rest).head? → Tracks text limits n (f next) (g next) p) :
    Tracks text limits n (peek >>= f) (Parser.peek >>= g) p := by
  refine tracks_peek hp fun next hnext => hf next ?_
  rw [← hat.bytes, List.head?_drop, hp.text_eq, hnext]

/-- Over a character that was seen. -/
theorem tracks_over {β : Type} {d : Char} (hp : Sane text limits p) (hat : p.At rest)
    (hd : d.toNat < 0x80) {next : Option UInt8} (hnext : next = (utf8 rest).head?)
    (hbyte : next = some (byteOf d)) {f : Unit → Watch β} {g : Unit → Parse β}
    (hf : ∀ tail, rest = d :: tail → Sane text limits (p.read [d] 0) → (p.read [d] 0).At tail →
      Tracks text limits n (f ()) (g ()) (p.read [d] 0)) :
    Tracks text limits n (bump 1 >>= f) (Parser.bump 1 >>= g) p := by
  obtain ⟨tail, rfl⟩ := (Parser.next_is hd).mp (hnext.symm.trans hbyte)
  have hbytes : some (byteOf d) = (utf8 text)[p.cursor]? := by
    rw [← hbyte, hnext, ← hat.bytes, List.head?_drop, hp.text_eq]
  exact tracks_next (tracks_step hp hbytes) (Parser.bump_char hd) fun hq =>
    hf tail rfl hq (hat.read_one 0)

theorem tracks_close {d : Char} (hp : Sane text limits p) (hat : p.At rest)
    (hd : d.toNat < 0x80) {next : Option UInt8} (hnext : next = (utf8 rest).head?)
    (hbyte : next = some (byteOf d)) (j : Json) :
    Tracks text limits n (bump 1 >>= fun _ => pure j) (Parser.bump 1 >>= fun _ => pure j) p :=
  tracks_over hp hat hd hnext hbyte fun _ _ hq _ => tracks_pure hq j

theorem tracks_spaces {β : Type} (hp : Sane text limits p) (hat : p.At rest) {f : Unit → Watch β}
    {g : Unit → Parse β} (hf : ∀ (q : Parser) (rest' : List Char), Sane text limits q →
      q.At rest' → Tracks text limits n (f ()) (g ()) q) :
    Tracks text limits n (skipWs >>= f) (Parser.skipWs >>= g) p := by
  obtain ⟨w, rest', rfl, -, -, hskip⟩ := Parser.skipWs_run hat
  exact tracks_next (tracks_skipWs hp) hskip fun hq => hf _ rest' hq (hat.read 0)

/-- A value, then the whitespace after it. -/
theorem tracks_item {β : Type} (hvalue : TracksValue text limits fuel) (hp : Sane text limits p)
    (hat : p.At rest) (hdepth : depth ≤ limits.maxDepth) {f : Json → Watch β} {g : Json → Parse β}
    (hf : ∀ (j : Json) (q : Parser) (rest' : List Char), Sane text limits q → q.At rest' →
      Tracks text limits depth (f j) (g j) q) :
    Tracks text limits depth (value fuel depth >>= fun j => skipWs >>= fun _ => f j)
      (Parser.value fuel depth >>= fun j => Parser.skipWs >>= fun _ => g j) p := by
  refine tracks_bind (hvalue hp hat hdepth) fun j q hq hsane => ?_
  have hdepth' : depth ≤ p.limits.maxDepth := hp.limits_eq ▸ hdepth
  obtain ⟨raw, spelled, rest, rfl, -, -, -, hskip⟩ :=
    Parser.value_padded (Parser.sound fuel).1 hat hdepth' hq
  exact tracks_next (tracks_skipWs hsane) hskip fun hr => hf j _ rest hr (hat.read raw.nodes)

theorem tracksElements_succ (hvalue : TracksValue text limits fuel)
    (helements : TracksElements text limits fuel) : TracksElements text limits (fuel + 1) := by
  intro depth values p rest hp hat hdepth
  rw [elements, Parser.elements_eq]
  refine tracks_item hvalue hp hat hdepth fun j q rest hq hat => tracks_peek_at hq hat
    fun next hnext => tracks_ite (fun hcomma => ?_) fun _ => tracks_ite (fun hclose => ?_) fun _ =>
      tracks_error _
  · exact tracks_over (d := ',') hq hat (by decide) hnext hcomma fun tail _ hr hat =>
      helements hr hat hdepth
  · exact tracks_close (d := ']') hq hat (by decide) hnext hclose _

theorem tracksMembers_succ (hvalue : TracksValue text limits fuel)
    (hmembers : TracksMembers text limits fuel) : TracksMembers text limits (fuel + 1) := by
  intro depth values keys p rest hp hat hdepth
  rw [members, Parser.members_eq]
  refine tracks_spaces hp hat fun p rest hp hat => tracks_peek_at hp hat fun next hnext =>
    tracks_ite (fun hquote => ?_) fun _ => tracks_error _
  obtain ⟨tail, rfl⟩ := (Parser.next_is (d := '\"') (by decide)).mp (hnext.symm.trans hquote)
  refine tracks_bind (tracks_string hp hat) fun key q hstring hq => ?_
  obtain ⟨token, rest, htoken, -, rfl⟩ := Parser.string_sound hat hstring
  rw [htoken] at hat
  refine tracks_get hq (tracks_ite (fun _ => tracks_error _) fun _ => ?_)
  refine tracks_spaces hq hat.move fun q rest hq hat => tracks_peek_at hq hat fun next hnext =>
    tracks_ite (fun hcolon => ?_) fun _ => tracks_error _
  refine tracks_over (d := ':') hq hat (by decide) hnext hcolon fun tail _ hr hat => ?_
  refine tracks_item hvalue hr hat hdepth fun j s rest hs hat => tracks_peek_at hs hat
    fun next hnext => tracks_ite (fun hcomma => ?_) fun _ => tracks_ite (fun hclose => ?_) fun _ =>
      tracks_error _
  · exact tracks_over (d := ',') hs hat (by decide) hnext hcomma fun tail _ hr hat =>
      hmembers hr hat hdepth
  · exact tracks_close (d := '}') hs hat (by decide) hnext hclose _

theorem tracks_array {next : Option UInt8} (helements : ∀ n < fuel, TracksElements text limits n)
    (hp : Sane text limits p) (hat : p.At rest) (hdepth : depth ≤ limits.maxDepth)
    (hnext : next = (utf8 rest).head?) (hopen : next = some 0x5b) :
    Tracks text limits depth (array fuel depth) (Parser.array fuel depth) p := by
  cases fuel with
  | zero =>
    rw [array, Parser.array]
    exact tracks_panic _
  | succ fuel =>
    rw [array, Parser.array_eq]
    refine tracks_over (d := '[') hp hat (by decide) hnext hopen fun tail _ hq hat => ?_
    refine tracks_spaces hq hat fun q rest hq hat => tracks_peek_at hq hat fun next hnext =>
      tracks_ite (fun hclose => ?_) fun _ => helements fuel (by omega) hq hat hdepth
    exact tracks_close (d := ']') hq hat (by decide) hnext hclose _

theorem tracks_object {next : Option UInt8} (hmembers : ∀ n < fuel, TracksMembers text limits n)
    (hp : Sane text limits p) (hat : p.At rest) (hdepth : depth ≤ limits.maxDepth)
    (hnext : next = (utf8 rest).head?) (hopen : next = some 0x7b) :
    Tracks text limits depth (object fuel depth) (Parser.object fuel depth) p := by
  cases fuel with
  | zero =>
    rw [object, Parser.object]
    exact tracks_panic _
  | succ fuel =>
    rw [object, Parser.object_eq]
    refine tracks_over (d := '{') hp hat (by decide) hnext hopen fun tail _ hq hat => ?_
    refine tracks_spaces hq hat fun q rest hq hat => tracks_peek_at hq hat fun next hnext =>
      tracks_ite (fun hclose => ?_) fun _ => hmembers fuel (by omega) hq hat hdepth
    exact tracks_close (d := '}') hq hat (by decide) hnext hclose _

/-- One more call is open while `x` runs. -/
theorem tracks_call {α : Type} {x : Watch α} {y : Parse α} (hn : n ≤ limits.maxDepth)
    (hx : Tracks text limits (n + 1) x y p) : Tracks text limits n (call x) y p := by
  intro events hevents
  obtain ⟨events', hevents', hrun⟩ := hx (events ++ [.called (n + 1)]) fun e hmem => by
    rcases List.mem_append.mp hmem with hmem | hmem
    · exact hevents e hmem
    · rw [List.mem_singleton.mp hmem]
      exact Nat.succ_le_succ hn
  have hcall : call x ⟨p, n, events⟩ =
      match x ⟨p, n + 1, events ++ [.called (n + 1)]⟩ with
      | (.ok a, w) => (.ok a, { w with frames := w.frames - 1 })
      | (.error e, w) => (.error e, w) := by
    have hopen : (modify fun w => { w with frames := w.frames + 1 } : Watch Unit) ⟨p, n, events⟩ =
        (.ok (), ⟨p, n + 1, events⟩) := rfl
    have hget : (get : Watch Watcher) ⟨p, n + 1, events⟩ =
        (.ok ⟨p, n + 1, events⟩, ⟨p, n + 1, events⟩) := rfl
    have hemit : emit (.called (n + 1)) ⟨p, n + 1, events⟩ =
        (.ok (), ⟨p, n + 1, events ++ [.called (n + 1)]⟩) := rfl
    rw [call, run_next hopen, run_next hget, run_next hemit, run_bind]
    rcases x ⟨p, n + 1, events ++ [.called (n + 1)]⟩ with ⟨⟨e⟩ | ⟨a⟩, w⟩ <;> rfl
  refine ⟨events', hevents', ?_⟩
  cases hy : y p with
  | error e =>
    rw [hy] at hrun
    obtain ⟨q, m, hrun⟩ := hrun
    exact ⟨q, m, by rw [hcall, hrun]⟩
  | ok r =>
    rw [hy] at hrun
    refine ⟨?_, hrun.2⟩
    rw [hcall, hrun.1]
    rfl

theorem tracksValue_succ (helements : ∀ n < fuel, TracksElements text limits n)
    (hmembers : ∀ n < fuel, TracksMembers text limits n) : TracksValue text limits (fuel + 1) := by
  intro depth p rest hp hat hdepth
  rw [value, Parser.value_eq]
  refine tracks_call hdepth (tracks_spaces hp hat fun p rest hp hat => ?_)
  refine tracks_next (a := ()) (q := p.read [] 1) (tracks_lift ?_) rfl fun hq => tracks_get hq
    (tracks_ite (fun _ => tracks_error _) fun _ => ?_)
  · rintro a q ⟨⟩
    exact ⟨hp.text_eq, hp.limits_eq, hp.cursor_le⟩
  have hat : (p.read [] 1).At rest := @Parser.At.read p [] rest hat 1
  have hword : ∀ (word : String) (raw : Json), Tracks text limits (depth + 1)
      (literal word >>= fun _ => pure raw) (Parser.literal word >>= fun _ => pure raw)
      (p.read [] 1) :=
    fun word raw => tracks_bind (tracks_literal word hq hat) fun _ _ _ hr => tracks_pure hr raw
  rw [Parser.dispatch]
  refine tracks_peek_at hq hat fun next hnext => tracks_ite (fun hobject => ?_) fun _ =>
    tracks_ite (fun harray => ?_) fun _ => tracks_ite (fun hstring => ?_) fun _ => ?_
  · refine tracks_bind (tracks_enter depth hq) fun _ q henter hsane => ?_
    obtain ⟨hlt, ⟨⟩⟩ := Parser.enter_ok.mp henter
    exact tracks_object hmembers hq hat (hq.limits_eq ▸ hlt) hnext hobject
  · refine tracks_bind (tracks_enter depth hq) fun _ q henter hsane => ?_
    obtain ⟨hlt, ⟨⟩⟩ := Parser.enter_ok.mp henter
    exact tracks_array helements hq hat (hq.limits_eq ▸ hlt) hnext harray
  · obtain ⟨cs, rfl⟩ := (Parser.next_is (d := '\"') (by decide)).mp (hnext.symm.trans hstring)
    exact tracks_bind (tracks_string hq hat) fun _ _ _ hr => tracks_pure hr _
  · refine tracks_ite (fun _ => hword _ _) fun _ => tracks_ite (fun _ => hword _ _) fun _ =>
      tracks_ite (fun _ => hword _ _) fun _ => ?_
    exact tracks_ite (fun _ => tracks_number hq hat) fun _ => tracks_error _

theorem tracks (text : List Char) (limits : Limits) (fuel : ℕ) : TracksValue text limits fuel ∧
    TracksElements text limits fuel ∧ TracksMembers text limits fuel := by
  induction fuel using Nat.strong_induction_on with
  | _ fuel ih =>
    cases fuel with
    | zero =>
      refine ⟨fun {_ _ _} _ _ _ => ?_, fun {_ _ _ _} _ _ _ => ?_, fun {_ _ _ _ _} _ _ _ => ?_⟩
      · rw [value, Parser.value]
        exact tracks_panic _
      · rw [elements, Parser.elements]
        exact tracks_panic _
      · rw [members, Parser.members]
        exact tracks_panic _
    | succ fuel =>
      obtain ⟨hvalue, helements, hmembers⟩ := ih fuel (by omega)
      exact ⟨tracksValue_succ (fun n hn => (ih n (by omega)).2.1) fun n hn => (ih n (by omega)).2.2,
        tracksElements_succ hvalue helements, tracksMembers_succ hvalue hmembers⟩

theorem tracks_document (text : List Char) (limits : Limits) :
    Tracks text limits 0 (document text) (Parser.document text) ⟨text, 0, 0, limits⟩ := by
  have hat : (⟨text, 0, 0, limits⟩ : Parser).At text := ⟨[], rfl, rfl⟩
  refine tracks_item (tracks text limits _).1 ⟨rfl, rfl, Nat.zero_le _⟩ hat (Nat.zero_le _)
    fun j q rest hq _ => tracks_get hq (tracks_ite (fun _ => tracks_error _) fun _ =>
      tracks_pure hq j)

end
end Watch

/-- The parser never panics. It returns what it returns under watch, where every position of the
cursor is within the text, every slice is between characters of it, and calls of `value` are nested
to one above the depth limit at most. -/
theorem parse_watched (text : String) (limits : Limits) :
    (watchParse text limits).1 = parse text limits ∧
      (∀ message, parse text limits ≠ .error (.panic message)) ∧
      ∀ e ∈ (watchParse text limits).2, e.Fine text.toList limits := by
  have hne := parse_ne_panic text limits
  rw [watchParse]
  rw [parse, parseChars_eq] at hne ⊢
  by_cases hsize : (utf8 text.toList).length > limits.maxBytes
  · simp only [if_pos hsize] at hne ⊢
    exact ⟨trivial, hne, by simp⟩
  · simp only [if_neg hsize] at hne ⊢
    obtain ⟨events, hevents, hrun⟩ := Watch.tracks_document text.toList limits [] (by simp)
    cases hdoc : Parser.document text.toList ⟨text.toList, 0, 0, limits⟩ with
    | error e =>
      rw [hdoc] at hrun hne
      obtain ⟨q, m, hrun⟩ := hrun
      rw [hrun]
      exact ⟨rfl, hne, hevents⟩
    | ok r =>
      rw [hdoc] at hrun hne
      rw [hrun.1]
      exact ⟨rfl, hne, hevents⟩

end MirrorRust
