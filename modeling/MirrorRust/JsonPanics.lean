import MirrorRust.JsonParsing

/-! The parser never panics: it only cuts at character boundaries, and the recursion bound is not
reached. Whatever it does not accept, it refuses with an error. -/
namespace MirrorRust
namespace Parser

/-- The parse does not panic here. -/
def Calm {α : Type} (x : Parse α) (p : Parser) : Prop := ∀ message, x p ≠ .error (.panic message)

section
variable {α β : Type} {x : Parse α} {f : α → Parse β} {p q : Parser} {rest : List Char}

/-- A parse that does not panic may go on with another from where it stops. -/
theorem calm_bind (hx : Calm x p) (hf : ∀ a q, x p = .ok (a, q) → Calm (f a) q) :
    Calm (x >>= f) p := by
  intro message h
  rw [run_bind] at h
  cases hrun : x p with
  | error e =>
    rw [hrun] at h
    have he : e = .panic message := Except.error.inj h
    exact hx message (hrun.trans (congrArg _ he))
  | ok r =>
    rw [hrun] at h
    exact hf r.1 r.2 hrun message h

theorem calm_run {a : α} (h : x p = .ok (a, q)) : Calm x p := by
  intro message hpanic
  rw [h] at hpanic
  cases hpanic

theorem calm_next {a : α} (h : x p = .ok (a, q)) (hf : Calm (f a) q) : Calm (x >>= f) p := by
  intro message
  rw [bind_run h]
  exact hf message

theorem calm_error (message : String) : Calm (error message : Parse α) p := by
  intro panic h
  cases h

theorem calm_ite {P : Prop} [Decidable P] {y : Parse α} (hx : P → Calm x p) (hy : ¬ P → Calm y p) :
    Calm (if P then x else y) p := by
  split_ifs with h
  · exact hx h
  · exact hy h

theorem calm_skipWhile (g : UInt8 → Bool) : Calm (skipWhile g) p := calm_run rfl

theorem calm_peek : Calm peek p := calm_run rfl

theorem calm_bump (n : ℕ) : Calm (bump n) p := calm_run rfl

/-! ### Tokens -/

theorem calm_digits (message : String) : Calm (digits message) p := by
  refine calm_bind calm_peek fun next q _ => ?_
  cases next with
  | none => exact calm_error message
  | some b => exact calm_ite (fun _ => calm_skipWhile _) fun _ => calm_error message

theorem calm_minus : Calm minus p :=
  calm_bind calm_peek fun _ _ _ => calm_ite (fun _ => calm_bump 1) fun _ => calm_run rfl

theorem calm_intPart : Calm intPart p := by
  rw [intPart_eq]
  refine calm_bind calm_peek fun _ _ _ => calm_ite (fun _ => ?_) fun _ => calm_digits _
  refine calm_bind (calm_bump 1) fun _ _ _ => calm_bind calm_peek fun _ _ _ => ?_
  exact calm_ite (fun _ => calm_error _) fun _ => calm_run rfl

theorem calm_fracPart : Calm fracPart p := by
  refine calm_bind calm_peek fun _ _ _ => calm_ite (fun _ => ?_) fun _ => calm_run rfl
  exact calm_bind (calm_bump 1) fun _ _ _ => calm_digits _

theorem calm_expSign : Calm expSign p :=
  calm_bind calm_peek fun _ _ _ => calm_bind calm_peek fun _ _ _ =>
    calm_ite (fun _ => calm_bump 1) fun _ => calm_run rfl

theorem calm_expPart : Calm expPart p := by
  refine calm_bind calm_peek fun _ _ _ => calm_bind calm_peek fun _ _ _ => ?_
  refine calm_ite (fun _ => ?_) fun _ => calm_run rfl
  exact calm_bind (calm_bump 1) fun _ _ _ => calm_bind calm_expSign fun _ _ _ => calm_digits _

theorem calm_numberBody : Calm numberBody p :=
  calm_bind calm_minus fun _ _ _ => calm_bind calm_intPart fun _ _ _ =>
    calm_bind calm_fracPart fun _ _ _ => calm_expPart

/-- A token is cut where its last byte ends a character. -/
theorem calm_number (hp : p.At rest) : Calm number p := by
  have hbody : number = (get >>= fun s => numberBody >>= fun _ => numberToken s.cursor) := by
    simp only [number_eq, numberBody, bind_assoc]
  rw [hbody]
  refine calm_next (q := p) (a := p) rfl (calm_bind calm_numberBody fun _ q hq => ?_)
  obtain ⟨text, rest', rfl, -, rfl⟩ := numberBody_accepts.sound hp hq
  refine calm_next (a := p.move text) (q := p.move text) rfl ?_
  have hcut := hp.cut (q := p.move text) rfl
  exact calm_next hcut (calm_run rfl)

theorem calm_literal (word : String) (hp : p.At rest) : Calm (literal word) p := by
  obtain ⟨before, htext, hcursor⟩ := hp
  refine calm_next (a := p) (q := p) rfl ?_
  rw [htext, hcursor, dropBytes_utf8]
  exact calm_ite (fun _ => calm_bump _) fun _ => calm_error _

/-- A string is cut between its quotes, which are characters of their own. -/
theorem calm_string (hp : p.At ('\"' :: rest)) : Calm string p := by
  intro message
  rw [string_run hp]
  cases hscan : scanString (utf8 rest) (p.cursor + 1) with
  | error e => exact calm_error _ message
  | ok cursor =>
    obtain ⟨content, rest', rfl, -, rfl⟩ := scan_sound hscan
    have hsize : p.cursor + 1 + (utf8 content).length =
        p.cursor + (utf8 ('\"' :: content)).length := by
      rw [utf8_cons, encodeChar_ascii (by decide), List.length_append, List.length_singleton]
      omega
    have hcut := @At.cut p ('\"' :: content) rest' hp (p.move ('\"' :: content)) rfl
    simp only [hsize]
    refine calm_next hcut ?_ message
    cases decodeToken ('\"' :: content) with
    | none => exact calm_error _
    | some s => exact calm_run rfl

theorem calm_enter (depth : ℕ) : Calm (enter depth) p :=
  calm_next (a := p) (q := p) rfl (calm_ite (fun _ => calm_error _) fun _ => calm_run rfl)

end

/-! ### Values -/

/-- Where a value is expected, no parse with this much fuel panics. -/
def CalmValue (fuel : ℕ) : Prop :=
  ∀ {depth : ℕ} {p : Parser} {rest : List Char}, p.At rest → depth ≤ p.limits.maxDepth →
    3 * rest.length + 1 ≤ fuel → Calm (value fuel depth) p

def CalmElements (fuel : ℕ) : Prop :=
  ∀ {depth : ℕ} {values : List Json} {p : Parser} {rest : List Char}, p.At rest →
    depth ≤ p.limits.maxDepth → 3 * rest.length + 2 ≤ fuel → Calm (elements fuel depth values) p

def CalmMembers (fuel : ℕ) : Prop :=
  ∀ {depth : ℕ} {values : OrderedMap String Json} {keys : List String} {p : Parser}
    {rest : List Char}, p.At rest → depth ≤ p.limits.maxDepth → 3 * rest.length + 2 ≤ fuel →
    Calm (members fuel depth values keys) p

theorem calmElements_succ {fuel : ℕ} (hvalue : CalmValue fuel) (helements : CalmElements fuel) :
    CalmElements (fuel + 1) := by
  intro depth values p rest hp hdepth hfuel
  rw [elements_eq]
  refine calm_bind (hvalue hp hdepth (by omega)) fun j q hq => ?_
  obtain ⟨raw, text, rest, rfl, -, -, -, hskip⟩ := value_padded (sound fuel).1 hp hdepth hq
  have hat := hp.read raw.nodes
  refine calm_next hskip (calm_next hat.peek (calm_ite (fun hcomma => ?_) fun _ =>
    calm_ite (fun _ => ?_) fun _ => calm_error _))
  · obtain ⟨tail, rfl⟩ := (next_is (d := ',') (by decide)).mp hcomma
    have hlength : 3 * tail.length + 2 ≤ fuel := by
      rw [List.length_append, List.length_cons] at hfuel
      omega
    exact calm_next (bump_char (c := ',') (by decide))
      (helements (hat.read_one 0) (by simpa using hdepth) hlength)
  · exact calm_bind (calm_bump 1) fun _ _ _ => calm_run rfl

theorem calmMembers_succ {fuel : ℕ} (hvalue : CalmValue fuel) (hmembers : CalmMembers fuel) :
    CalmMembers (fuel + 1) := by
  intro depth values keys p rest hp hdepth hfuel
  obtain ⟨w, rest, rfl, -, -, hskip⟩ := skipWs_run hp
  have hat := hp.read 0
  rw [members_eq]
  refine calm_next hskip (calm_next hat.peek (calm_ite (fun hquote => ?_) fun _ => calm_error _))
  obtain ⟨tail, rfl⟩ := (next_is (d := '\"') (by decide)).mp hquote
  refine calm_bind (calm_string hat) fun key q hq => ?_
  obtain ⟨token, rest, heq, -, rfl⟩ := string_sound hat hq
  rw [heq] at hat hp hfuel
  have hkey := hat.move
  refine calm_next (a := _) (q := _) rfl (calm_ite (fun _ => calm_error _) fun _ => ?_)
  obtain ⟨w', rest, rfl, -, -, hskip'⟩ := skipWs_run hkey
  have hcolon := hkey.read 0
  refine calm_next hskip' (calm_next hcolon.peek (calm_ite (fun hnext => ?_) fun _ =>
    calm_error _))
  obtain ⟨tail', rfl⟩ := (next_is (d := ':') (by decide)).mp hnext
  have hitem := hcolon.read_one 0
  refine calm_next (bump_char (c := ':') (by decide)) (calm_bind (hvalue hitem ?_ ?_) ?_)
  · simpa using hdepth
  · simp only [List.length_append, List.length_cons] at hfuel
    omega
  intro item r hr
  obtain ⟨raw, text, rest, rfl, -, -, -, hskip''⟩ :=
    value_padded (sound fuel).1 hitem (by simpa using hdepth) hr
  have hend := hitem.read raw.nodes
  refine calm_next hskip'' (calm_next hend.peek (calm_ite (fun hcomma => ?_) fun _ =>
    calm_ite (fun _ => ?_) fun _ => calm_error _))
  · obtain ⟨tail'', rfl⟩ := (next_is (d := ',') (by decide)).mp hcomma
    refine calm_next (bump_char (c := ',') (by decide)) (hmembers (hend.read_one 0) ?_ ?_)
    · simpa using hdepth
    · simp only [List.length_append, List.length_cons] at hfuel
      omega
  · exact calm_bind (calm_bump 1) fun _ _ _ => calm_run rfl

theorem calm_array {fuel : ℕ} (helements : ∀ n < fuel, CalmElements n) {depth : ℕ} {p : Parser}
    {cs : List Char} (hp : p.At ('[' :: cs)) (hdepth : depth < p.limits.maxDepth)
    (hfuel : 3 * cs.length + 3 ≤ fuel) : Calm (array fuel (depth + 1)) p := by
  obtain ⟨fuel, rfl⟩ := Nat.exists_eq_add_one_of_ne_zero (show fuel ≠ 0 by omega)
  obtain ⟨w, rest, rfl, -, -, hskip⟩ := skipWs_run (hp.read_one 0)
  have hat := (hp.read_one 0).read 0
  rw [List.length_append] at hfuel
  rw [array_eq]
  refine calm_next (bump_char (c := '[') (by decide)) (calm_next hskip (calm_next hat.peek
    (calm_ite (fun _ => ?_) fun _ => ?_)))
  · exact calm_bind (calm_bump 1) fun _ _ _ => calm_run rfl
  · exact helements fuel (by omega) hat hdepth (by omega)

theorem calm_object {fuel : ℕ} (hmembers : ∀ n < fuel, CalmMembers n) {depth : ℕ} {p : Parser}
    {cs : List Char} (hp : p.At ('{' :: cs)) (hdepth : depth < p.limits.maxDepth)
    (hfuel : 3 * cs.length + 3 ≤ fuel) : Calm (object fuel (depth + 1)) p := by
  obtain ⟨fuel, rfl⟩ := Nat.exists_eq_add_one_of_ne_zero (show fuel ≠ 0 by omega)
  obtain ⟨w, rest, rfl, -, -, hskip⟩ := skipWs_run (hp.read_one 0)
  have hat := (hp.read_one 0).read 0
  rw [List.length_append] at hfuel
  rw [object_eq]
  refine calm_next (bump_char (c := '{') (by decide)) (calm_next hskip (calm_next hat.peek
    (calm_ite (fun _ => ?_) fun _ => ?_)))
  · exact calm_bind (calm_bump 1) fun _ _ _ => calm_run rfl
  · exact hmembers fuel (by omega) hat hdepth (by omega)

theorem calm_dispatch {fuel : ℕ} (helements : ∀ n < fuel, CalmElements n)
    (hmembers : ∀ n < fuel, CalmMembers n) {depth : ℕ} {p : Parser} {rest : List Char}
    (hp : p.At rest) (hfuel : 3 * rest.length ≤ fuel) : Calm (dispatch fuel depth) p := by
  have hword : ∀ (word : String) (raw : Json), Calm (literal word >>= fun _ => pure raw) p :=
    fun word raw => calm_bind (calm_literal word hp) fun _ _ _ => calm_run rfl
  rw [dispatch]
  refine calm_next hp.peek (calm_ite (fun hobject => ?_) fun _ => calm_ite (fun harray => ?_)
    fun _ => calm_ite (fun hstring => ?_) fun _ => ?_)
  · obtain ⟨cs, rfl⟩ := (next_is (d := '{') (by decide)).mp hobject
    refine calm_bind (calm_enter depth) fun _ q hq => ?_
    obtain ⟨hlt, ⟨⟩⟩ := enter_ok.mp hq
    exact calm_object hmembers hp hlt hfuel
  · obtain ⟨cs, rfl⟩ := (next_is (d := '[') (by decide)).mp harray
    refine calm_bind (calm_enter depth) fun _ q hq => ?_
    obtain ⟨hlt, ⟨⟩⟩ := enter_ok.mp hq
    exact calm_array helements hp hlt hfuel
  · obtain ⟨cs, rfl⟩ := (next_is (d := '\"') (by decide)).mp hstring
    exact calm_bind (calm_string hp) fun _ _ _ => calm_run rfl
  · refine calm_ite (fun _ => hword _ _) fun _ => calm_ite (fun _ => hword _ _) fun _ =>
      calm_ite (fun _ => hword _ _) fun _ => ?_
    exact calm_ite (fun _ => calm_number hp) fun _ => calm_error _

theorem calmValue_succ {fuel : ℕ} (helements : ∀ n < fuel, CalmElements n)
    (hmembers : ∀ n < fuel, CalmMembers n) : CalmValue (fuel + 1) := by
  intro depth p rest hp hdepth hfuel message
  obtain ⟨w, rest, rfl, -, -, hrun⟩ := value_run hp fuel depth
  rw [List.length_append] at hfuel
  rw [hrun]
  refine calm_ite (fun _ => calm_error _) (fun _ => ?_) message
  exact calm_dispatch helements hmembers (hp.read 1) (by omega)

/-- The three parsers call each other with less fuel. -/
theorem calm (fuel : ℕ) : CalmValue fuel ∧ CalmElements fuel ∧ CalmMembers fuel := by
  induction fuel using Nat.strong_induction_on with
  | _ fuel ih =>
    cases fuel with
    | zero =>
      exact ⟨fun {_ _ _} _ _ h => absurd h (by omega), fun {_ _ _ _} _ _ h => absurd h (by omega),
        fun {_ _ _ _ _} _ _ h => absurd h (by omega)⟩
    | succ fuel =>
      obtain ⟨hvalue, helements, hmembers⟩ := ih fuel (by omega)
      exact ⟨calmValue_succ (fun n hn => (ih n (by omega)).2.1) fun n hn => (ih n (by omega)).2.2,
        calmElements_succ hvalue helements, calmMembers_succ hvalue hmembers⟩

theorem calm_document (text : List Char) (limits : Limits) :
    Calm (document text) ⟨text, 0, 0, limits⟩ := by
  have hstart : (⟨text, 0, 0, limits⟩ : Parser).At text := ⟨[], rfl, rfl⟩
  have hlength : text.length ≤ (utf8 text).length := length_le_utf8 text
  refine calm_bind ((calm _).1 hstart (Nat.zero_le _) (by omega)) fun _ q _ => ?_
  refine calm_bind (calm_skipWhile _) fun _ q _ => calm_next (a := q) (q := q) rfl ?_
  exact calm_ite (fun _ => calm_error _) fun _ => calm_run rfl

end Parser

/-- The parser panics at no text and under no limits. -/
theorem parse_ne_panic (text : String) (limits : Limits) (message : String) :
    parse text limits ≠ .error (.panic message) := by
  rw [parse, parseChars_eq]
  split_ifs
  · intro h
    cases h
  · intro h
    have hcalm := Parser.calm_document text.toList limits message
    cases hrun : Parser.document text.toList ⟨text.toList, 0, 0, limits⟩ with
    | error e =>
      rw [hrun] at h hcalm
      exact hcalm (congrArg _ (Except.error.inj h))
    | ok r =>
      rw [hrun] at h
      cases h

/-- A text is a document, or it is refused with an error. -/
theorem parse_cases (text : String) (limits : Limits) :
    (∃ j, parse text limits = .ok j) ∨ ∃ message, parse text limits = .error (.error message) := by
  cases hparse : parse text limits with
  | ok j => exact Or.inl ⟨j, rfl⟩
  | error e =>
    cases e with
    | error message => exact Or.inr ⟨message, rfl⟩
    | panic message => exact absurd hparse (parse_ne_panic text limits message)

end MirrorRust
