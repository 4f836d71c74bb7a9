import MirrorRust.Framing

/-! Successive calls of the reader on one stream. A call that gives up in the middle of a line
leaves the rest of that line to the next call. -/
namespace MirrorRust

def unread : ℕ → List UInt8 → List UInt8
  | 0, reader => reader
  | k + 1, reader => unread k (readProtocolLine reader).2

def LineStart (before : List UInt8) : Prop := before = [] ∨ before.getLast? = some 0x0a

/-- The content of one complete line of a stream, with the bytes before and after the line. -/
structure LineOf (stream before content after : List UInt8) : Prop where
  spells : stream = before ++ (content ++ 0x0a :: after)
  starts : LineStart before
  whole : 0x0a ∉ content

/-- Every line that a call returns is the content of the line of the stream that the call starts at
and takes whole, and later calls return later lines. -/
structure Unfabricated (stream : List UInt8) : Prop where
  lines : ∀ n k text, (readProtocolLines n stream)[k]? = some (.ok (some text)) →
    ∃ before content, before ++ unread k stream = stream ∧
      LineOf stream before content (unread (k + 1) stream) ∧
      fromUtf8 (stripCr content) = some text
  ordered : ∀ n k l text, k < l → l ≤ n →
    (readProtocolLines n stream)[k]? = some (.ok (some text)) →
    (unread l stream).length < (unread k stream).length

/-- The reader accepts these bytes as a line. -/
def Acceptable (content : List UInt8) : Prop :=
  (stripCr content).length ≤ MAX_PROTOCOL_LINE_BYTES ∧ ∃ text, fromUtf8 (stripCr content) = some text

def lastChunk (content : List UInt8) : List UInt8 :=
  content.drop (content.length / (MAX_PROTOCOL_LINE_BYTES + 2) * (MAX_PROTOCOL_LINE_BYTES + 2))

/-! ### One call -/

theorem readUntil_append (delim : UInt8) (limit : ℕ) (bytes : List UInt8) :
    (readUntil delim limit bytes).1 ++ (readUntil delim limit bytes).2 = bytes := by
  induction limit generalizing bytes with
  | zero => rfl
  | succ limit ih =>
    cases bytes with
    | nil => rfl
    | cons b bytes =>
      unfold readUntil
      split_ifs
      · rfl
      · exact congrArg (b :: ·) (ih bytes)

theorem readUntil_none {delim : UInt8} {limit : ℕ} {bytes : List UInt8}
    (h : delim ∉ bytes.take limit) :
    readUntil delim limit bytes = (bytes.take limit, bytes.drop limit) := by
  induction limit generalizing bytes with
  | zero => rfl
  | succ limit ih =>
    cases bytes with
    | nil => rfl
    | cons b bytes =>
      rw [List.take_succ_cons, List.mem_cons, not_or] at h
      rw [readUntil, if_neg (Ne.symm h.1), ih h.2]
      rfl

theorem readProtocolLine_snd (reader : List UInt8) :
    (readProtocolLine reader).2 = (readUntil 0x0a (MAX_PROTOCOL_LINE_BYTES + 2) reader).2 := rfl

theorem readProtocolLine_suffix (reader : List UInt8) : (readProtocolLine reader).2 <:+ reader :=
  ⟨_, readUntil_append _ _ _⟩

theorem readProtocolLine_none {reader : List UInt8}
    (h : 0x0a ∉ reader.take (MAX_PROTOCOL_LINE_BYTES + 2)) (text : String) :
    (readProtocolLine reader).1 ≠ .ok (some text) ∧
      (readProtocolLine reader).2 = reader.drop (MAX_PROTOCOL_LINE_BYTES + 2) := by
  have hread := readUntil_none h
  refine ⟨?_, by rw [readProtocolLine_snd, hread]⟩
  simp only [readProtocolLine, hread]
  have hlast : (reader.take (MAX_PROTOCOL_LINE_BYTES + 2)).getLast? ≠ some 0x0a :=
    fun hlast => h (List.mem_of_getLast? hlast)
  rw [if_pos hlast]
  split_ifs <;> simp

/-- With a line feed in reach the bytes before it are taken, and returned if they are
acceptable. -/
theorem readProtocolLine_line {content : List UInt8} (h : 0x0a ∉ content)
    (hlength : content.length < MAX_PROTOCOL_LINE_BYTES + 2) (rest : List UInt8) (text : String) :
    (readProtocolLine (content ++ 0x0a :: rest)).2 = rest ∧
      ((readProtocolLine (content ++ 0x0a :: rest)).1 = .ok (some text) ↔
        (stripCr content).length ≤ MAX_PROTOCOL_LINE_BYTES ∧
          fromUtf8 (stripCr content) = some text) := by
  have hread := readUntil_first h rest hlength
  refine ⟨by rw [readProtocolLine_snd, hread], ?_⟩
  have hne : content ++ [0x0a] ≠ [] := List.append_ne_nil_of_right_ne_nil _ (List.cons_ne_nil _ _)
  have hlast : (content ++ [0x0a]).getLast? = some 0x0a := List.getLast?_concat
  have hinit : (content ++ [0x0a]).dropLast = content := List.dropLast_concat
  simp only [readProtocolLine, hread, hne, hlast, hinit, if_false, ne_eq, not_true_eq_false]
  by_cases hsize : (stripCr content).length > MAX_PROTOCOL_LINE_BYTES
  · rw [if_pos hsize]
    exact iff_of_false (fun h => by cases h) fun h' => absurd h'.1 (not_le.mpr hsize)
  · rw [if_neg hsize]
    cases htext : fromUtf8 (stripCr content) with
    | none => exact iff_of_false (fun h => by cases h) fun h' => by cases h'.2
    | some line => simp [not_lt.mp hsize]

/-! ### Successive calls -/

theorem unread_suffix (k : ℕ) (reader : List UInt8) : unread k reader <:+ reader := by
  induction k generalizing reader with
  | zero => exact List.suffix_rfl
  | succ k ih => exact (ih _).trans (readProtocolLine_suffix reader)

theorem unread_add (k l : ℕ) (reader : List UInt8) :
    unread (k + l) reader = unread l (unread k reader) := by
  induction k generalizing reader with
  | zero => rw [Nat.zero_add, unread]
  | succ k ih => rw [Nat.succ_add, unread, ih, unread]

theorem readProtocolLines_get {n k : ℕ} (h : k < n) (reader : List UInt8) :
    (readProtocolLines n reader)[k]? = some (readProtocolLine (unread k reader)).1 := by
  induction n generalizing k reader with
  | zero => exact absurd h k.not_lt_zero
  | succ n ih =>
    cases k with
    | zero => rfl
    | succ k => exact ih (Nat.lt_of_succ_lt_succ h) _

theorem readProtocolLines_length (n : ℕ) (reader : List UInt8) :
    (readProtocolLines n reader).length = n := by
  induction n generalizing reader with
  | zero => rfl
  | succ n ih => exact congrArg (· + 1) (ih _)

theorem readProtocolLines_get_iff {n k : ℕ} {reader : List UInt8} {text : String} :
    (readProtocolLines n reader)[k]? = some (.ok (some text)) ↔
      k < n ∧ (readProtocolLine (unread k reader)).1 = .ok (some text) := by
  by_cases hk : k < n
  · rw [readProtocolLines_get hk, Option.some.injEq]
    exact ⟨fun h => ⟨hk, h⟩, fun h => h.2⟩
  · rw [List.getElem?_eq_none (by rw [readProtocolLines_length]; omega)]
    exact iff_of_false nofun fun h => hk h.1

theorem unread_lt {reader : List UInt8} {text : String}
    (h : (readProtocolLine reader).1 = .ok (some text)) :
    (readProtocolLine reader).2.length < reader.length := by
  have hparts := readUntil_append 0x0a (MAX_PROTOCOL_LINE_BYTES + 2) reader
  have hlength := congrArg List.length hparts
  rw [List.length_append] at hlength
  rw [readProtocolLine_snd]
  have hne : (readUntil 0x0a (MAX_PROTOCOL_LINE_BYTES + 2) reader).1 ≠ [] := by
    intro hnil
    simp only [readProtocolLine, hnil, if_true] at h
    cases h
  have hpos := List.length_pos_of_ne_nil hne
  omega

/-- The calls on `reader`, after the bytes `start` were read, return lines of the whole stream
only. -/
def Steady (start reader : List UInt8) : Prop :=
  ∀ k text, (readProtocolLine (unread k reader)).1 = .ok (some text) →
    ∃ before content, before ++ unread k reader = start ++ reader ∧
      LineOf (start ++ reader) before content (unread (k + 1) reader) ∧
      fromUtf8 (stripCr content) = some text

theorem unfabricated_iff_steady {stream : List UInt8} : Unfabricated stream ↔ Steady [] stream := by
  constructor
  · intro h k text htext
    exact h.lines (k + 1) k text (readProtocolLines_get_iff.mpr ⟨k.lt_succ_self, htext⟩)
  · intro h
    refine ⟨fun n k text htext => h k text (readProtocolLines_get_iff.mp htext).2, ?_⟩
    intro n k l text hkl _ htext
    obtain ⟨m, rfl⟩ := Nat.exists_eq_add_of_lt hkl
    have hfirst := unread_lt (readProtocolLines_get_iff.mp htext).2
    have hrest : unread (k + m + 1) stream =
        unread m (readProtocolLine (unread k stream)).2 := by
      rw [Nat.add_assoc, unread_add, unread]
    have hle := (unread_suffix m (readProtocolLine (unread k stream)).2).length_le
    rw [hrest]
    omega

theorem steady_succ {start chunk rest : List UInt8}
    (hrest : (readProtocolLine (chunk ++ rest)).2 = rest) :
    Steady start (chunk ++ rest) ↔
      (∀ text, (readProtocolLine (chunk ++ rest)).1 = .ok (some text) →
        ∃ content, LineOf (start ++ (chunk ++ rest)) start content rest ∧
          fromUtf8 (stripCr content) = some text) ∧ Steady (start ++ chunk) rest := by
  constructor
  · intro h
    constructor
    · intro text htext
      obtain ⟨before, content, hbefore, hline, hcontent⟩ := h 0 text htext
      obtain rfl := List.append_cancel_right hbefore
      refine ⟨content, ?_, hcontent⟩
      rw [unread, unread, hrest] at hline
      exact hline
    · intro k text htext
      have hk := h (k + 1) text
      rw [unread, unread, hrest, ← List.append_assoc] at hk
      exact hk htext
  · rintro ⟨hfirst, hothers⟩ k text htext
    cases k with
    | zero =>
      obtain ⟨content, hline, hcontent⟩ := hfirst text htext
      refine ⟨start, content, rfl, ?_, hcontent⟩
      rw [unread, unread, hrest]
      exact hline
    | succ k =>
      rw [unread, hrest] at htext
      obtain ⟨before, content, h⟩ := hothers k text htext
      refine ⟨before, content, ?_⟩
      rw [unread, unread, hrest, ← List.append_assoc]
      exact h

theorem steady_unterminated {start reader : List UInt8} (h : 0x0a ∉ reader) :
    Steady start reader := by
  intro k text htext
  refine absurd htext (readProtocolLine_none (fun hmem => ?_) text).1
  exact h ((unread_suffix k reader).subset (List.mem_of_mem_take hmem))

theorem steady_chunk {start chunk rest : List UInt8} (h : 0x0a ∉ chunk)
    (hlength : chunk.length = MAX_PROTOCOL_LINE_BYTES + 2) :
    Steady start (chunk ++ rest) ↔ Steady (start ++ chunk) rest := by
  have htake : (chunk ++ rest).take (MAX_PROTOCOL_LINE_BYTES + 2) = chunk := by
    rw [← hlength, List.take_left]
  have hdrop : (chunk ++ rest).drop (MAX_PROTOCOL_LINE_BYTES + 2) = rest := by
    rw [← hlength, List.drop_left]
  have hnone : ∀ text, (readProtocolLine (chunk ++ rest)).1 ≠ .ok (some text) ∧
      (readProtocolLine (chunk ++ rest)).2 = rest := by
    intro text
    have hcall := @readProtocolLine_none (chunk ++ rest) (htake.symm ▸ h) text
    rwa [hdrop] at hcall
  rw [steady_succ (hnone "").2]
  exact and_iff_right fun text htext => absurd htext (hnone text).1

theorem append_lf_inj {content content' rest rest' : List UInt8} (h : 0x0a ∉ content)
    (h' : 0x0a ∉ content') (heq : content ++ 0x0a :: rest = content' ++ 0x0a :: rest') :
    content = content' ∧ rest = rest' := by
  induction content generalizing content' with
  | nil =>
    cases content' with
    | nil => exact ⟨rfl, (List.cons.inj heq).2⟩
    | cons b content' => exact absurd (List.mem_cons.mpr (Or.inl (List.cons.inj heq).1)) h'
  | cons b content ih =>
    cases content' with
    | nil => exact absurd (List.mem_cons.mpr (Or.inl (List.cons.inj heq).1.symm)) h
    | cons c content' =>
      obtain ⟨rfl, htail⟩ := List.cons.inj heq
      obtain ⟨rfl, hrest⟩ := ih (fun hmem => h (List.mem_cons_of_mem _ hmem))
        (fun hmem => h' (List.mem_cons_of_mem _ hmem)) htail
      exact ⟨rfl, hrest⟩

theorem steady_line {start content rest : List UInt8} (h : 0x0a ∉ content)
    (hlength : content.length < MAX_PROTOCOL_LINE_BYTES + 2) :
    Steady start (content ++ 0x0a :: rest) ↔
      (Acceptable content → LineStart start) ∧ Steady (start ++ (content ++ [0x0a])) rest := by
  have hchunk : content ++ 0x0a :: rest = (content ++ [0x0a]) ++ rest := by simp
  have hcall := fun text => readProtocolLine_line h hlength rest text
  have hrest := (hcall "").1
  rw [hchunk] at hrest
  rw [hchunk, steady_succ hrest, ← hchunk]
  refine and_congr_left' ⟨?_, ?_⟩
  · rintro hfirst ⟨hsize, text, htext⟩
    obtain ⟨content', hline, -⟩ := hfirst text ((hcall text).2.mpr ⟨hsize, htext⟩)
    exact hline.starts
  · intro hstart text htext
    obtain ⟨hsize, htext⟩ := (hcall text).2.mp htext
    exact ⟨content, ⟨rfl, hstart ⟨hsize, text, htext⟩, h⟩, htext⟩

/-! ### Long lines -/

theorem lastChunk_short {content : List UInt8}
    (h : content.length < MAX_PROTOCOL_LINE_BYTES + 2) : lastChunk content = content := by
  rw [lastChunk, Nat.div_eq_of_lt h, Nat.zero_mul, List.drop_zero]

theorem lastChunk_append {chunk more : List UInt8}
    (h : chunk.length = MAX_PROTOCOL_LINE_BYTES + 2) :
    lastChunk (chunk ++ more) = lastChunk more := by
  have hpos : 0 < MAX_PROTOCOL_LINE_BYTES + 2 := Nat.succ_pos _
  rw [lastChunk, List.length_append, h, Nat.add_div_left _ hpos, Nat.succ_mul, Nat.add_comm,
    ← h, List.drop_length_add_append, lastChunk, h]

theorem exists_chunk {content : List UInt8} (h : 0x0a ∉ content)
    (hlength : MAX_PROTOCOL_LINE_BYTES + 2 ≤ content.length) :
    ∃ chunk more, content = chunk ++ more ∧ chunk.length = MAX_PROTOCOL_LINE_BYTES + 2 ∧
      0x0a ∉ chunk ∧ 0x0a ∉ more :=
  ⟨content.take (MAX_PROTOCOL_LINE_BYTES + 2), content.drop (MAX_PROTOCOL_LINE_BYTES + 2),
    (List.take_append_drop _ _).symm, List.length_take_of_le hlength,
    fun hmem => h (List.mem_of_mem_take hmem), fun hmem => h (List.mem_of_mem_drop hmem)⟩

theorem not_lineStart {start chunk : List UInt8} (h : 0x0a ∉ chunk) (hne : chunk ≠ []) :
    ¬ LineStart (start ++ chunk) := by
  rintro (hnil | hlast)
  · exact hne (List.append_eq_nil_iff.mp hnil).2
  · rw [List.getLast?_append_of_ne_nil _ hne] at hlast
    exact h (List.mem_of_getLast? hlast)

/-- In the middle of a line the calls go wrong unless they refuse what is left for the last. -/
theorem steady_inside {start content rest : List UInt8} (h : 0x0a ∉ content)
    (hstart : ¬ LineStart start) :
    Steady start (content ++ 0x0a :: rest) ↔
      ¬ Acceptable (lastChunk content) ∧ Steady (start ++ (content ++ [0x0a])) rest := by
  induction hn : content.length using Nat.strong_induction_on generalizing start content with
  | _ n ih =>
    by_cases hlength : content.length < MAX_PROTOCOL_LINE_BYTES + 2
    · rw [steady_line h hlength, lastChunk_short hlength]
      exact and_congr_left' (imp_iff_not hstart)
    · obtain ⟨chunk, more, rfl, hchunk, hin, hmore⟩ := exists_chunk h (not_lt.mp hlength)
      have hne : chunk ≠ [] := List.ne_nil_of_length_pos (by omega)
      rw [List.length_append] at hn
      have hrest := ih more.length (by omega) hmore (@not_lineStart start chunk hin hne) rfl
      rw [List.append_assoc, steady_chunk hin hchunk, hrest, lastChunk_append hchunk]
      simp only [List.append_assoc]

/-- At the start of a line they go wrong when the line is long and the rest of it acceptable. -/
theorem steady_outside {start content rest : List UInt8} (h : 0x0a ∉ content)
    (hstart : LineStart start) :
    Steady start (content ++ 0x0a :: rest) ↔
      (MAX_PROTOCOL_LINE_BYTES + 2 ≤ content.length → ¬ Acceptable (lastChunk content)) ∧
        Steady (start ++ (content ++ [0x0a])) rest := by
  by_cases hlength : content.length < MAX_PROTOCOL_LINE_BYTES + 2
  · rw [steady_line h hlength]
    exact and_congr_left' (iff_of_true (fun _ => hstart) fun hlong => absurd hlong (by omega))
  · obtain ⟨chunk, more, rfl, hchunk, hin, hmore⟩ := exists_chunk h (not_lt.mp hlength)
    have hne : chunk ≠ [] := List.ne_nil_of_length_pos (by omega)
    rw [List.append_assoc, steady_chunk hin hchunk,
      steady_inside hmore (not_lineStart hin hne), lastChunk_append hchunk]
    simp only [List.append_assoc]
    exact and_congr_left' ⟨fun hrefused _ => hrefused, fun hlong =>
      hlong (by rw [List.length_append]; omega)⟩

/-- No line of the stream is longer than a call may read and has an acceptable rest. -/
def TailsRefused (stream : List UInt8) : Prop :=
  ∀ before content after, LineOf stream before content after →
    MAX_PROTOCOL_LINE_BYTES + 2 ≤ content.length → ¬ Acceptable (lastChunk content)

theorem tailsRefused_line {content rest : List UInt8} (h : 0x0a ∉ content) :
    TailsRefused (content ++ 0x0a :: rest) ↔
      (MAX_PROTOCOL_LINE_BYTES + 2 ≤ content.length → ¬ Acceptable (lastChunk content)) ∧
        TailsRefused rest := by
  constructor
  · intro hall
    refine ⟨hall [] content rest ⟨rfl, Or.inl rfl, h⟩, fun before content' after hline => ?_⟩
    refine hall (content ++ 0x0a :: before) content' after ⟨?_, Or.inr ?_, hline.whole⟩
    · rw [hline.spells]
      simp
    · rcases hline.starts with rfl | hlast
      · simp
      · rw [List.getLast?_append_of_ne_nil _ (List.cons_ne_nil _ _), List.getLast?_cons, hlast]
        rfl
  · rintro ⟨hfirst, hothers⟩ before content' after ⟨hspells, hstarts, hwhole⟩
    by_cases hmem : (0x0a : UInt8) ∈ before
    · obtain ⟨first, more, rfl, hfirst'⟩ := List.eq_append_cons_of_mem hmem
      rw [List.append_assoc] at hspells
      obtain ⟨rfl, hrest⟩ := append_lf_inj h hfirst' hspells
      refine hothers more content' after ⟨hrest, ?_, hwhole⟩
      rcases more.eq_nil_or_concat' with rfl | ⟨init, b, rfl⟩
      · exact Or.inl rfl
      · refine Or.inr ?_
        have hlast : (content ++ 0x0a :: (init ++ [b])).getLast? = some b := by
          rw [← List.cons_append, ← List.append_assoc, List.getLast?_concat]
        rw [List.getLast?_concat, ← hlast]
        exact hstarts.resolve_left (by simp)
    · have hnil : before = [] := by
        rcases hstarts with hnil | hlast
        · exact hnil
        · exact absurd (List.mem_of_getLast? hlast) hmem
      rw [hnil, List.nil_append] at hspells
      obtain ⟨rfl, -⟩ := append_lf_inj h hwhole hspells
      exact hfirst

theorem tailsRefused_unterminated {stream : List UInt8} (h : 0x0a ∉ stream) : TailsRefused stream := by
  rintro before content after ⟨rfl, -, -⟩
  simp at h

theorem steady_iff {start reader : List UInt8} (hstart : LineStart start) :
    Steady start reader ↔ TailsRefused reader := by
  induction hn : reader.length using Nat.strong_induction_on generalizing start reader with
  | _ n ih =>
    by_cases hmem : (0x0a : UInt8) ∈ reader
    · obtain ⟨content, rest, rfl, hcontent⟩ := List.eq_append_cons_of_mem hmem
      have hnext : LineStart (start ++ (content ++ [0x0a])) := Or.inr (by simp)
      have hrest := ih rest.length (by simp at hn; omega) hnext rfl
      rw [steady_outside hcontent hstart, tailsRefused_line hcontent, hrest]
    · exact iff_of_true (steady_unterminated hmem) (tailsRefused_unterminated hmem)

/-- The reader fabricates no line exactly on the streams without a line that is longer than one
call may read and has an acceptable rest. -/
theorem unfabricated_iff (stream : List UInt8) : Unfabricated stream ↔ TailsRefused stream := by
  rw [unfabricated_iff_steady]
  exact steady_iff (Or.inl rfl)

/-- A line of 65538 bytes, and no more. -/
def oversized : List UInt8 :=
  List.replicate (MAX_PROTOCOL_LINE_BYTES + 2) 0x61 ++ ([0x62] ++ [0x0a])

/-- Its last byte is returned by the second call, as a line of its own. -/
theorem oversized_tail : (readProtocolLines 2 oversized)[1]? = some (.ok (some "b")) ∧
    ¬ ∀ stream, Unfabricated stream := by
  have hchunk : (0x0a : UInt8) ∉ List.replicate (MAX_PROTOCOL_LINE_BYTES + 2) 0x61 := by
    simp [List.mem_replicate]
  have htext : fromUtf8 (stripCr [0x62]) = some "b" := fromUtf8_utf8 ['b']
  constructor
  · have hnone := @readProtocolLine_none oversized (by
      rw [oversized, List.take_left' (by simp)]
      exact hchunk) ""
    have hnext : unread 1 oversized = [0x62] ++ 0x0a :: [] := by
      rw [unread, unread, hnone.2, oversized, List.drop_left' (by simp)]
    rw [readProtocolLines_get_iff, hnext]
    exact ⟨by decide, (readProtocolLine_line (by decide) (by decide) [] "b").2.mpr
      ⟨by decide, htext⟩⟩
  · intro h
    have hrefused := (unfabricated_iff oversized).mp (h oversized)
    refine hrefused [] (List.replicate (MAX_PROTOCOL_LINE_BYTES + 2) 0x61 ++ [0x62]) []
      ⟨?_, Or.inl rfl, ?_⟩ ?_ ?_
    · simp only [oversized, List.nil_append, List.append_assoc]
    · simp [List.mem_replicate]
    · rw [List.length_append, List.length_replicate]
      omega
    · rw [lastChunk_append (by simp), lastChunk_short (by decide)]
      exact ⟨by decide, "b", htext⟩

end MirrorRust
