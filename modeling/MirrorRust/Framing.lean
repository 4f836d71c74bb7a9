import MirrorRust.Value
import MirrorRust.Foundation.Utf8

/-! The line framing of the protocol: one line of UTF-8 text, ended by a line feed. -/
namespace MirrorRust

def MAX_PROTOCOL_LINE_BYTES : ℕ := 65_535

def validateProtocolLine (line : String) : Except Error Unit :=
  if line = "" then .error (.invalidArgument "protocol line must not be empty")
  else if '\n' ∈ line.toList then
    .error (.invalidArgument "protocol line contains an embedded newline")
  else if line.utf8ByteSize > MAX_PROTOCOL_LINE_BYTES then
    .error (.invalidArgument "protocol line exceeds 65535-byte UTF-8 payload limit")
  else .ok ()

def writeProtocolLine (line : String) : List UInt8 := utf8 line.toList ++ [0x0a]

/-- `reader.take(limit).read_until(delim, ..)`: the bytes that are read, and those that stay. -/
def readUntil (delim : UInt8) : ℕ → List UInt8 → List UInt8 × List UInt8
  | 0, bytes => ([], bytes)
  | _ + 1, [] => ([], [])
  | limit + 1, b :: bytes =>
    if b = delim then ([b], bytes)
    else
      let (line, rest) := readUntil delim limit bytes
      (b :: line, rest)

def stripCr (bytes : List UInt8) : List UInt8 :=
  if bytes.getLast? = some 0x0d then bytes.dropLast else bytes

/-- The width of the sequence that a byte opens, with the bounds of the byte that follows it. -/
def utf8Lead (b : UInt8) : Option (ℕ × UInt8 × UInt8) :=
  if 0xc2 ≤ b ∧ b ≤ 0xdf then some (2, 0x80, 0xbf)
  else if b = 0xe0 then some (3, 0xa0, 0xbf)
  else if b = 0xed then some (3, 0x80, 0x9f)
  else if 0xe1 ≤ b ∧ b ≤ 0xef then some (3, 0x80, 0xbf)
  else if b = 0xf0 then some (4, 0x90, 0xbf)
  else if 0xf1 ≤ b ∧ b ≤ 0xf3 then some (4, 0x80, 0xbf)
  else if b = 0xf4 then some (4, 0x80, 0x8f)
  else none

/-- The text of `Utf8Error` after `valid` bytes of whole characters and `seen` bytes of the next
one, of which `due` bytes are still to come, the first of them between `low` and `high`. -/
def utf8Error (valid seen due : ℕ) (low high : UInt8) : List UInt8 → String
  | [] => "incomplete utf-8 byte sequence from index " ++ toString valid
  | b :: bytes =>
    if due = 0 then
      if b < 0x80 then utf8Error (valid + 1) 0 0 low high bytes
      else
        match utf8Lead b with
        | none => "invalid utf-8 sequence of 1 bytes from index " ++ toString valid
        | some (width, low, high) => utf8Error valid 1 (width - 1) low high bytes
    else if low ≤ b ∧ b ≤ high then
      if due = 1 then utf8Error (valid + seen + 1) 0 0 low high bytes
      else utf8Error valid (seen + 1) (due - 1) 0x80 0xbf bytes
    else "invalid utf-8 sequence of " ++ toString seen ++ " bytes from index " ++ toString valid

/-- The next line of a reader that never fails, and the bytes that stay in it. -/
def readProtocolLine (reader : List UInt8) : Except Error (Option String) × List UInt8 :=
  let (bytes, rest) := readUntil 0x0a (MAX_PROTOCOL_LINE_BYTES + 2) reader
  let result : Except Error (Option String) :=
    if bytes = [] then .ok none
    else if bytes.getLast? ≠ some 0x0a then
      .error (.io "unterminated or oversized protocol line")
    else
      let line := stripCr bytes.dropLast
      if line.length > MAX_PROTOCOL_LINE_BYTES then
        .error (.io "protocol line exceeds 65535-byte UTF-8 payload limit")
      else
        match fromUtf8 line with
        | some text => .ok (some text)
        | none => .error (.io ("protocol line is not UTF-8: " ++ utf8Error 0 0 0 0 0 line))
  (result, rest)

def readProtocolLines : ℕ → List UInt8 → List (Except Error (Option String))
  | 0, _ => []
  | n + 1, reader =>
    let (result, rest) := readProtocolLine reader
    result :: readProtocolLines n rest

/-! ### Reading back what was written -/

theorem validateProtocolLine_render {j : Json}
    (h : 4 * j.chars.length ≤ MAX_PROTOCOL_LINE_BYTES) (hne : j.chars ≠ [])
    (hnewline : '\n' ∉ j.chars) : validateProtocolLine j.render = .ok () := by
  have hsize : ¬ j.render.utf8ByteSize > MAX_PROTOCOL_LINE_BYTES :=
    not_lt.mpr ((utf8ByteSize_le j.chars).trans h)
  have hchars : j.render.toList = j.chars := String.toList_ofList
  have hempty : j.render ≠ "" := by
    intro hempty
    rw [hempty] at hchars
    exact hne hchars.symm
  unfold validateProtocolLine
  rw [if_neg hempty, if_neg (by rwa [hchars]), if_neg hsize]

theorem readUntil_first {delim : UInt8} {line : List UInt8} (h : delim ∉ line) (rest : List UInt8)
    {limit : ℕ} (hlimit : line.length < limit) :
    readUntil delim limit (line ++ delim :: rest) = (line ++ [delim], rest) := by
  induction line generalizing limit with
  | nil =>
    obtain ⟨n, rfl⟩ := Nat.exists_eq_add_of_lt hlimit
    simp [readUntil]
  | cons b line ih =>
    obtain ⟨n, rfl⟩ := Nat.exists_eq_add_one_of_ne_zero (Nat.ne_zero_of_lt hlimit)
    have hb : b ≠ delim := fun he => h (by simp [he])
    have hline : delim ∉ line := fun hmem => h (List.mem_cons_of_mem _ hmem)
    rw [List.cons_append, readUntil, if_neg hb, ih hline (by simpa using hlimit)]
    rfl

def received (line : String) : String :=
  if line.toList.getLast? = some '\r' then String.ofList line.toList.dropLast else line

theorem received_eq_iff (line : String) :
    received line = line ↔ line.toList.getLast? ≠ some '\r' := by
  unfold received
  split_ifs with h
  · refine iff_of_false (fun heq => ?_) (not_not.mpr h)
    have hlen := congrArg (fun s => s.toList.length) heq
    have hne : line.toList ≠ [] := by
      intro hnil
      simp [hnil] at h
    have := List.length_pos_of_ne_nil hne
    simp at hlen
    omega
  · simp [h]

theorem stripCr_utf8 (line : String) : stripCr (utf8 line.toList) = utf8 (received line).toList := by
  rcases line.toList.eq_nil_or_concat' with hnil | ⟨init, last, hlast⟩
  · have hline : received line = line := by simp [received, hnil]
    rw [hline, hnil]
    rfl
  · by_cases hcr : last = '\r'
    · have hline : received line = String.ofList init := by
        simp [received, hlast, hcr]
      have hbytes : utf8 line.toList = utf8 init ++ [0x0d] := by
        rw [hlast, utf8_append, hcr]
        rfl
      rw [hline, hbytes, stripCr]
      simp
    · have hline : received line = line := by
        rw [received_eq_iff, hlast]
        simpa using hcr
      rw [hline, stripCr, if_neg]
      intro hget
      have hmem : (0x0d : UInt8) ∈ String.utf8EncodeChar last := by
        rw [hlast, utf8_append, List.getLast?_append_of_ne_nil _ (by simp)] at hget
        simpa using List.mem_of_getLast? hget
      exact hcr ((mem_encodeChar (d := '\r') (by decide)).mp hmem)

theorem validateProtocolLine_ok {line : String} (h : validateProtocolLine line = .ok ()) :
    '\n' ∉ line.toList ∧ line.utf8ByteSize ≤ MAX_PROTOCOL_LINE_BYTES := by
  unfold validateProtocolLine at h
  split_ifs at h with hempty hnewline hsize
  exact ⟨hnewline, not_lt.mp hsize⟩

theorem length_stripCr (bytes : List UInt8) : (stripCr bytes).length ≤ bytes.length := by
  unfold stripCr
  split_ifs <;> simp

theorem readProtocolLine_write {line : String} (h : validateProtocolLine line = .ok ())
    (rest : List UInt8) :
    readProtocolLine (writeProtocolLine line ++ rest) = (.ok (some (received line)), rest) := by
  obtain ⟨hnewline, hsize⟩ := validateProtocolLine_ok h
  have hdelim : (0x0a : UInt8) ∉ utf8 line.toList := fun hmem =>
    hnewline ((mem_utf8 (d := '\n') (by decide)).mp hmem)
  have hlimit : (utf8 line.toList).length < MAX_PROTOCOL_LINE_BYTES + 2 := by
    rw [length_utf8]
    omega
  have hlength : (stripCr (utf8 line.toList)).length ≤ MAX_PROTOCOL_LINE_BYTES := by
    have := length_stripCr (utf8 line.toList)
    rw [length_utf8] at this
    omega
  have hread : readUntil 0x0a (MAX_PROTOCOL_LINE_BYTES + 2) (writeProtocolLine line ++ rest) =
      (writeProtocolLine line, rest) := by
    rw [writeProtocolLine, List.append_assoc]
    exact readUntil_first hdelim rest hlimit
  have hne : writeProtocolLine line ≠ [] := by simp [writeProtocolLine]
  have hlast : (writeProtocolLine line).getLast? = some 0x0a := by simp [writeProtocolLine]
  have hinit : (writeProtocolLine line).dropLast = utf8 line.toList := by simp [writeProtocolLine]
  have htext : fromUtf8 (stripCr (utf8 line.toList)) = some (received line) := by
    rw [stripCr_utf8, fromUtf8_utf8, String.ofList_toList]
  simp only [readProtocolLine, hread, hne, hlast, hinit, if_false, ne_eq, not_true_eq_false,
    not_lt.mpr hlength, htext]

theorem readProtocolLine_nil : readProtocolLine [] = (.ok none, []) := rfl

theorem map_received_eq_iff {lines : List String} :
    lines.map received = lines ↔ ∀ line ∈ lines, line.toList.getLast? ≠ some '\r' := by
  induction lines with
  | nil => simp
  | cons line lines ih => simp [received_eq_iff, ih]

/-- Lines that were written one after the other are read back in order, up to the carriage
return at the end of a line, and then the reader is at its end. -/
theorem readProtocolLines_write {lines : List String}
    (h : ∀ line ∈ lines, validateProtocolLine line = .ok ()) :
    readProtocolLines (lines.length + 1) (lines.flatMap writeProtocolLine) =
        lines.map (fun line => .ok (some (received line))) ++ [.ok none] ∧
      (lines.map received = lines ↔ ∀ line ∈ lines, line.toList.getLast? ≠ some '\r') := by
  refine ⟨?_, map_received_eq_iff⟩
  induction lines with
  | nil => simp [readProtocolLines, readProtocolLine_nil]
  | cons line lines ih =>
    have hline := h line (by simp)
    have hlines := ih fun l hl => h l (List.mem_cons_of_mem _ hl)
    rw [List.flatMap_cons, List.length_cons, readProtocolLines, readProtocolLine_write hline]
    simp only [hlines, List.map_cons, List.cons_append]

theorem readProtocolLines_write_two :
    readProtocolLines 3 (["first", "second\r"].flatMap writeProtocolLine) =
      [.ok (some "first"), .ok (some "second"), .ok none] :=
  have hvalid : ∀ line ∈ ["first", "second\r"], validateProtocolLine line = .ok () := by
    simp only [List.forall_mem_cons]
    exact ⟨rfl, rfl, by simp⟩
  (readProtocolLines_write hvalid).1

/-- A valid line that ends in a carriage return is not read back as it was written. -/
theorem readProtocolLines_write_cr : ¬ ∀ lines : List String,
    (∀ line ∈ lines, validateProtocolLine line = .ok ()) →
      readProtocolLines (lines.length + 1) (lines.flatMap writeProtocolLine) =
        lines.map (fun line => .ok (some line)) ++ [.ok none] := by
  intro h
  have hvalid : ∀ line ∈ ["x\r"], validateProtocolLine line = .ok () := by
    intro line hline
    rw [List.mem_singleton.mp hline]
    rfl
  have hread := h ["x\r"] hvalid
  have hline := readProtocolLine_write (hvalid "x\r" (by simp)) []
  simp only [List.append_nil] at hline
  simp only [List.length_singleton, List.flatMap_singleton, readProtocolLines, hline,
    List.map_singleton, List.singleton_append, List.cons.injEq, Except.ok.injEq,
    Option.some.injEq] at hread
  exact absurd hread.1 (by decide)

end MirrorRust
