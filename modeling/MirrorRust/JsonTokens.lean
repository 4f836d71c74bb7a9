import MirrorRust.JsonCursor
import MirrorRust.JsonRender

/-! The tokens of the parser: numbers, strings and literals are accepted exactly as the grammar
spells them. -/
namespace MirrorRust
namespace Parser

/-! ### Parses that only move the cursor -/

/-- The parse moves over a text of `G`, and over every such text that `follow` ends. -/
structure Accepts {α : Type} (x : Parse α) (G : List Char → α → Prop)
    (follow : List Char → Prop) : Prop where
  sound : ∀ {p q : Parser} {rest : List Char} {a : α}, p.At rest → x p = .ok (a, q) →
    ∃ text rest', rest = text ++ rest' ∧ G text a ∧ q = p.move text
  complete : ∀ {p : Parser} {text rest : List Char} {a : α}, p.At (text ++ rest) → G text a →
    follow rest → x p = .ok (a, p.move text)

theorem run_bind {α β : Type} (x : Parse α) (f : α → Parse β) (p : Parser) :
    (x >>= f) p = (x p).bind fun r => f r.1 r.2 := rfl

theorem Accepts.bind {α β : Type} {x : Parse α} {f : α → Parse β} {G : List Char → α → Prop}
    {H : α → List Char → β → Prop} {follow next : List Char → Prop} (hx : Accepts x G follow)
    (hf : ∀ a, Accepts (f a) (H a) next)
    (hnext : ∀ text a rest b tail, G text a → H a rest b → next tail → follow (rest ++ tail)) :
    Accepts (x >>= f) (fun text b => ∃ head a rest, text = head ++ rest ∧ G head a ∧ H a rest b)
      next where
  sound {p q rest b} hp h := by
    rw [run_bind, bind_ok_iff] at h
    obtain ⟨⟨a, r⟩, hr, hq⟩ := h
    obtain ⟨text, rest', rfl, hG, rfl⟩ := hx.sound hp hr
    obtain ⟨tail, rest'', rfl, hH, rfl⟩ := (hf a).sound hp.move hq
    exact ⟨text ++ tail, rest'', by simp, ⟨text, a, tail, rfl, hG, hH⟩, by simp⟩
  complete {p text rest b} hp hG hrest := by
    obtain ⟨head, a, tail, rfl, hG, hH⟩ := hG
    rw [List.append_assoc] at hp
    rw [run_bind, hx.complete hp hG (hnext _ _ _ _ _ hG hH hrest)]
    simp only [Except.bind]
    rw [(hf a).complete hp.move hH hrest, move_move]

theorem Accepts.weaken {α : Type} {x : Parse α} {G G' : List Char → α → Prop}
    {follow follow' : List Char → Prop} (hx : Accepts x G follow)
    (hG : ∀ text a, G text a ↔ G' text a) (hfollow : ∀ rest, follow' rest → follow rest) :
    Accepts x G' follow' where
  sound hp h := by
    obtain ⟨text, rest', hrest, ha, hq⟩ := hx.sound hp h
    exact ⟨text, rest', hrest, (hG _ _).mp ha, hq⟩
  complete hp ha hrest := hx.complete hp ((hG _ _).mpr ha) (hfollow _ hrest)

/-- The next character is not a digit. -/
def NoDigit (rest : List Char) : Prop := ∀ c ∈ rest.head?, c.isDigit = false

theorem takeWhile_stop {f : Char → Bool} {text rest : List Char} (htext : ∀ c ∈ text, f c = true)
    (hrest : ∀ c ∈ rest.head?, f c = false) : (text ++ rest).takeWhile f = text := by
  rw [List.takeWhile_append_of_pos htext]
  cases rest with
  | nil => simp
  | cons c rest => simp [hrest c (by simp)]

theorem error_ne_ok {α : Type} {message : String} {p : Parser} {r : α × Parser} :
    (error message : Parse α) p ≠ .ok r := by
  simp [error, bind, StateT.bind, Except.bind, get, getThe, MonadStateOf.get, StateT.get, pure,
    Except.pure, throw, throwThe, MonadExceptOf.throw, StateT.lift]

/-- The first character when the next byte is below 0x80. -/
theorem head_of_peek {rest : List Char} {b : UInt8} (hb : (utf8 rest).head? = some b)
    (hlow : b.toNat < 0x80) : ∃ c cs, rest = c :: cs ∧ byteOf c = b ∧ c.toNat < 0x80 := by
  cases rest with
  | nil => simp at hb
  | cons c cs =>
    by_cases hc : c.toNat < 0x80
    · rw [utf8_cons, encodeChar_ascii hc] at hb
      exact ⟨c, cs, rfl, Option.some.inj hb, hc⟩
    · obtain ⟨d, ds, hd⟩ := List.exists_cons_of_ne_nil (encodeChar_ne_nil c)
      have hhigh := encodeChar_high (not_lt.mp hc) d (by simp [hd])
      rw [utf8_cons, hd] at hb
      simp only [List.cons_append, List.head?_cons, Option.some.injEq] at hb
      rw [hb] at hhigh
      omega

theorem peek_cons {p : Parser} {c : Char} {rest : List Char} (h : p.At (c :: rest))
    (hc : c.toNat < 0x80) : Parser.peek p = .ok (some (byteOf c), p) := by
  rw [h.peek, (head_utf8 hc).mpr rfl]

theorem bump_one {p : Parser} {c : Char} (hc : c.toNat < 0x80) :
    bump 1 p = .ok ((), p.move [c]) := by
  have hlen : (utf8 [c]).length = 1 := by
    rw [utf8_cons, encodeChar_ascii hc]
    rfl
  simp only [bump, modify, modifyGet, MonadStateOf.modifyGet, StateT.modifyGet, pure, Except.pure,
    Parser.move, hlen]

/-! ### Numbers -/

theorem digits_accepts (message : String) :
    Accepts (digits message) (fun text _ => Digits text) NoDigit where
  sound {p q rest _} hp h := by
    simp only [digits, run_bind, hp.peek, Except.bind] at h
    cases hb : (utf8 rest).head? with
    | none => simp [hb, error_ne_ok] at h
    | some b =>
      simp only [hb] at h
      by_cases hdigit : isDigit b = true
      · rw [if_pos hdigit, hp.skipDigits] at h
        cases h
        obtain ⟨c, cs, rfl, rfl, hc⟩ := head_of_peek hb (isDigit_low b hdigit)
        have hcd : c.isDigit = true := by
          rw [← charOf_isDigit]
          simp [charOf, hc, hdigit]
        refine ⟨_, _, (List.takeWhile_append_dropWhile).symm, ⟨?_, fun d hd => ?_⟩, rfl⟩
        · simp [hcd]
        · exact List.mem_takeWhile_imp hd
      · rw [if_neg hdigit] at h
        exact absurd h error_ne_ok
  complete {p text rest _} hp hG hrest := by
    obtain ⟨hne, hall⟩ := hG
    obtain ⟨c, cs, rfl⟩ := List.exists_cons_of_ne_nil hne
    have hcd : charOf isDigit c = true := by
      rw [charOf_isDigit]
      exact hall c (by simp)
    simp only [charOf, Bool.and_eq_true, decide_eq_true_eq] at hcd
    simp only [digits, run_bind, peek_cons hp hcd.1, Except.bind, hcd.2, if_true]
    rw [hp.skipDigits, takeWhile_stop hall hrest]

/-- The next byte is that of `d` exactly when the text goes on with `d`. -/
theorem next_is {d : Char} (hd : d.toNat < 0x80) {rest : List Char} :
    (utf8 rest).head? = some (byteOf d) ↔ ∃ cs, rest = d :: cs := by
  rw [head_utf8 hd, List.head?_eq_some_iff]

theorem next_cons (b : UInt8) (d : Char) (rest : List Char) (hd : d.toNat < 0x80)
    (hb : byteOf d = b) : (utf8 (d :: rest)).head? = some b :=
  hb ▸ (next_is hd).mpr ⟨rest, rfl⟩

theorem next_ne (b : UInt8) (d : Char) {rest : List Char} (hd : d.toNat < 0x80) (hb : byteOf d = b)
    (hrest : rest.head? ≠ some d) : (utf8 rest).head? ≠ some b :=
  hb ▸ fun h => hrest ((head_utf8 hd).mp h)

/-! The parts of a number, as `number` makes them one after the other. -/

def minus : Parse Unit := do
  if (← peek) = some 0x2d then bump 1

def intPart : Parse Unit := do
  match ← peek with
  | some 0x30 =>
    bump 1
    match ← peek with
    | some b => if isDigit b then error "invalid number integer part"
    | none => pure ()
  | _ => digits "invalid number integer part"

def fracPart : Parse Unit := do
  if (← peek) = some 0x2e then
    bump 1
    digits "fraction requires at least one digit"

def expSign : Parse Unit := do
  if (← peek) = some 0x2b ∨ (← peek) = some 0x2d then bump 1

def expPart : Parse Unit := do
  if (← peek) = some 0x65 ∨ (← peek) = some 0x45 then
    bump 1
    expSign
    digits "exponent requires at least one digit"

def numberToken (start : ℕ) : Parse Json := do
  let p ← get
  return .number (String.ofList (← cut start p.cursor))

theorem minus_bind (f : Parse Json) : (do
    if (← peek) = some 0x2d then bump 1
    f) = minus >>= fun _ => f := by
  simp only [minus, bind_assoc]
  refine bind_congr fun b => ?_
  split_ifs <;> simp

theorem intPart_bind (f : Parse Json) : (do
    match ← peek with
    | some 0x30 =>
      bump 1
      match ← peek with
      | some b => if isDigit b then error "invalid number integer part"
      | none => pure ()
    | _ => digits "invalid number integer part"
    f) = intPart >>= fun _ => f := by
  simp only [intPart, bind_assoc]
  refine bind_congr fun b => ?_
  split
  · simp only [bind_assoc]
    refine bind_congr fun _ => bind_congr fun b => ?_
    split
    · split_ifs <;> simp
    · simp
  · rfl

theorem fracPart_bind (f : Parse Json) : (do
    if (← peek) = some 0x2e then
      bump 1
      digits "fraction requires at least one digit"
    f) = fracPart >>= fun _ => f := by
  simp only [fracPart, bind_assoc]
  refine bind_congr fun b => ?_
  split_ifs <;> simp

theorem expPart_bind (f : Parse Json) : (do
    if (← peek) = some 0x65 ∨ (← peek) = some 0x45 then
      bump 1
      if (← peek) = some 0x2b ∨ (← peek) = some 0x2d then bump 1
      digits "exponent requires at least one digit"
    f) = expPart >>= fun _ => f := by
  simp only [expPart, expSign, bind_assoc]
  refine bind_congr fun b => bind_congr fun c => ?_
  split_ifs
  · simp only [bind_assoc]
    refine bind_congr fun _ => bind_congr fun b => bind_congr fun c => ?_
    split_ifs <;> simp
  · simp

theorem number_eq : number = (do
    let start := (← get).cursor
    minus
    intPart
    fracPart
    expPart
    numberToken start) := by
  unfold number
  refine bind_congr fun s => ?_
  rw [← minus_bind, ← intPart_bind, ← fracPart_bind, ← expPart_bind]
  rfl

/-- A character that may be there, when `b` is one of its bytes. -/
theorem minus_accepts : Accepts minus (fun text _ => text = [] ∨ text = ['-'])
    (fun rest => rest.head? ≠ some '-') where
  sound {p q rest _} hp h := by
    simp only [minus, run_bind, hp.peek, Except.bind] at h
    split_ifs at h with hb
    · obtain ⟨cs, rfl⟩ := (next_is (d := '-') (by decide)).mp hb
      rw [bump_one (c := '-') (by decide)] at h
      cases h
      exact ⟨['-'], cs, rfl, Or.inr rfl, rfl⟩
    · cases h
      exact ⟨[], rest, rfl, Or.inl rfl, rfl⟩
  complete {p text rest _} hp hG hrest := by
    simp only [minus, run_bind, hp.peek, Except.bind]
    rcases hG with rfl | rfl
    · rw [List.nil_append, if_neg (next_ne 0x2d '-' (by decide) rfl hrest)]
      rfl
    · rw [List.singleton_append, if_pos (next_cons 0x2d '-' rest (by decide) rfl),
        bump_one (c := '-') (by decide)]

theorem expSign_accepts :
    Accepts expSign (fun text _ => text = [] ∨ text = ['+'] ∨ text = ['-'])
      (fun rest => rest.head? ≠ some '+' ∧ rest.head? ≠ some '-') where
  sound {p q rest _} hp h := by
    simp only [expSign, run_bind, hp.peek, Except.bind] at h
    split_ifs at h with hb
    · rcases hb with hb | hb
      · obtain ⟨cs, rfl⟩ := (next_is (d := '+') (by decide)).mp hb
        rw [bump_one (c := '+') (by decide)] at h
        cases h
        exact ⟨['+'], cs, rfl, Or.inr (Or.inl rfl), rfl⟩
      · obtain ⟨cs, rfl⟩ := (next_is (d := '-') (by decide)).mp hb
        rw [bump_one (c := '-') (by decide)] at h
        cases h
        exact ⟨['-'], cs, rfl, Or.inr (Or.inr rfl), rfl⟩
    · cases h
      exact ⟨[], rest, rfl, Or.inl rfl, rfl⟩
  complete {p text rest _} hp hG hrest := by
    simp only [expSign, run_bind, hp.peek, Except.bind]
    rcases hG with rfl | rfl | rfl
    · rw [List.nil_append, if_neg]
      · rfl
      · rintro (hb | hb)
        · exact next_ne 0x2b '+' (by decide) rfl hrest.1 hb
        · exact next_ne 0x2d '-' (by decide) rfl hrest.2 hb
    · rw [List.singleton_append, if_pos (Or.inl (next_cons 0x2b '+' rest (by decide) rfl)),
        bump_one (c := '+') (by decide)]
    · rw [List.singleton_append, if_pos (Or.inr (next_cons 0x2d '-' rest (by decide) rfl)),
        bump_one (c := '-') (by decide)]

theorem intPart_eq : intPart = (do
    if (← peek) = some 0x30 then
      bump 1
      if (← peek).any isDigit then error "invalid number integer part"
    else digits "invalid number integer part") := by
  unfold intPart
  refine bind_congr fun o => ?_
  split
  · rw [if_pos rfl]
    refine bind_congr fun _ => bind_congr fun o => ?_
    cases o <;> rfl
  · rename_i ho
    rw [if_neg ho]

theorem intPart_accepts : Accepts intPart (fun text _ => IntPart text) NoDigit where
  sound {p q rest _} hp h := by
    simp only [intPart_eq, run_bind, hp.peek, Except.bind] at h
    split_ifs at h with hb
    · obtain ⟨cs, rfl⟩ := (next_is (d := '0') (by decide)).mp hb
      have hcs : (p.move ['0']).At cs := hp.move_one
      simp only [run_bind, bump_one (p := p) (c := '0') (by decide), hcs.peek, Except.bind] at h
      refine ⟨['0'], cs, rfl, Or.inl rfl, ?_⟩
      split_ifs at h
      · exact absurd h error_ne_ok
      · cases h
        rfl
    · obtain ⟨text, rest', rfl, hdigits, rfl⟩ := (digits_accepts _).sound hp h
      refine ⟨text, rest', rfl, Or.inr ⟨hdigits, fun hzero => hb ?_⟩, rfl⟩
      obtain ⟨ds, rfl⟩ := List.head?_eq_some_iff.mp hzero
      exact next_cons 0x30 '0' _ (by decide) rfl
  complete {p text rest _} hp hG hrest := by
    simp only [intPart_eq, run_bind, hp.peek, Except.bind]
    rcases hG with rfl | ⟨hdigits, hzero⟩
    · have hcs : (p.move ['0']).At rest := hp.move
      have hstop : (utf8 rest).head?.any isDigit = false := by
        by_contra hany
        obtain ⟨b, hb, hdigit⟩ := (Option.any_eq_true _ _).mp (by simpa using hany)
        obtain ⟨c, cs, rfl, rfl, hc⟩ := head_of_peek hb (isDigit_low b hdigit)
        have hcd := charOf_isDigit c
        rw [hrest c (by simp)] at hcd
        simp [charOf, hc, hdigit] at hcd
      rw [List.singleton_append, if_pos (next_cons 0x30 '0' rest (by decide) rfl)]
      simp only [run_bind, bump_one (p := p) (c := '0') (by decide), hcs.peek, Except.bind, hstop]
      rfl
    · rw [if_neg]
      · exact (digits_accepts _).complete hp hdigits hrest
      · refine next_ne 0x30 '0' (by decide) rfl ?_
        rwa [List.head?_append_of_ne_nil _ hdigits.1]

theorem fracPart_accepts : Accepts fracPart (fun text _ => FracPart text)
    (fun rest => rest.head? ≠ some '.' ∧ NoDigit rest) where
  sound {p q rest _} hp h := by
    simp only [fracPart, run_bind, hp.peek, Except.bind] at h
    split_ifs at h with hb
    · obtain ⟨cs, rfl⟩ := (next_is (d := '.') (by decide)).mp hb
      have hcs : (p.move ['.']).At cs := hp.move_one
      rw [run_bind, bump_one (c := '.') (by decide)] at h
      obtain ⟨ds, rest', rfl, hdigits, rfl⟩ := (digits_accepts _).sound hcs h
      exact ⟨'.' :: ds, rest', rfl, Or.inr ⟨ds, rfl, hdigits⟩, by simp⟩
    · cases h
      exact ⟨[], rest, rfl, Or.inl rfl, rfl⟩
  complete {p text rest _} hp hG hrest := by
    simp only [fracPart, run_bind, hp.peek, Except.bind]
    rcases hG with rfl | ⟨ds, rfl, hdigits⟩
    · rw [List.nil_append, if_neg (next_ne 0x2e '.' (by decide) rfl hrest.1)]
      rfl
    · rw [List.cons_append, if_pos (next_cons 0x2e '.' _ (by decide) rfl), run_bind,
        bump_one (c := '.') (by decide)]
      have hds : (p.move ['.']).At (ds ++ rest) := hp.move_one
      simpa [Except.bind] using (digits_accepts _).complete hds hdigits hrest.2

theorem exponent_accepts : Accepts (do
      expSign
      digits "exponent requires at least one digit")
    (fun text _ => ∃ sign ds, text = sign ++ ds ∧ (sign = [] ∨ sign = ['+'] ∨ sign = ['-']) ∧
      Digits ds) NoDigit := by
  refine (expSign_accepts.bind (fun _ => digits_accepts _) ?_).weaken (fun text _ => ?_)
    fun _ h => h
  · intro text _ ds _ tail _ hdigits _
    obtain ⟨d, ds, rfl⟩ := List.exists_cons_of_ne_nil hdigits.1
    have hd := hdigits.2 d (by simp)
    constructor <;>
    · intro hhead
      cases hhead
      exact absurd hd (by decide)
  · constructor
    · rintro ⟨sign, _, ds, rfl, hsign, hdigits⟩
      exact ⟨sign, ds, rfl, hsign, hdigits⟩
    · rintro ⟨sign, ds, rfl, hsign, hdigits⟩
      exact ⟨sign, (), ds, rfl, hsign, hdigits⟩

theorem expPart_accepts : Accepts expPart (fun text _ => ExpPart text)
    (fun rest => rest.head? ≠ some 'e' ∧ rest.head? ≠ some 'E' ∧ NoDigit rest) where
  sound {p q rest _} hp h := by
    simp only [expPart, run_bind, hp.peek, Except.bind] at h
    split_ifs at h with hb
    · obtain ⟨e, cs, rfl, he, hlow⟩ : ∃ e cs, rest = e :: cs ∧ (e = 'e' ∨ e = 'E') ∧
          e.toNat < 0x80 := by
        rcases hb with hb | hb
        · obtain ⟨cs, rfl⟩ := (next_is (d := 'e') (by decide)).mp hb
          exact ⟨'e', cs, rfl, Or.inl rfl, by decide⟩
        · obtain ⟨cs, rfl⟩ := (next_is (d := 'E') (by decide)).mp hb
          exact ⟨'E', cs, rfl, Or.inr rfl, by decide⟩
      have hcs : (p.move [e]).At cs := hp.move_one
      rw [run_bind, bump_one hlow] at h
      obtain ⟨text, rest', rfl, ⟨sign, ds, rfl, hsign, hdigits⟩, rfl⟩ :=
        exponent_accepts.sound hcs h
      exact ⟨e :: (sign ++ ds), rest', rfl, Or.inr ⟨e, sign, ds, rfl, he, hsign, hdigits⟩, by simp⟩
    · cases h
      exact ⟨[], rest, rfl, Or.inl rfl, rfl⟩
  complete {p text rest _} hp hG hrest := by
    simp only [expPart, run_bind, hp.peek, Except.bind]
    rcases hG with rfl | ⟨e, sign, ds, rfl, he, hsign, hdigits⟩
    · rw [List.nil_append, if_neg]
      · rfl
      · rintro (hb | hb)
        · exact next_ne 0x65 'e' (by decide) rfl hrest.1 hb
        · exact next_ne 0x45 'E' (by decide) rfl hrest.2.1 hb
    · have hlow : e.toNat < 0x80 := by
        rcases he with rfl | rfl <;> decide
      have hb : (utf8 (e :: (sign ++ ds) ++ rest)).head? = some 0x65 ∨
          (utf8 (e :: (sign ++ ds) ++ rest)).head? = some 0x45 := by
        rcases he with rfl | rfl
        · exact Or.inl (next_cons 0x65 'e' _ (by decide) rfl)
        · exact Or.inr (next_cons 0x45 'E' _ (by decide) rfl)
      have hds : (p.move [e]).At (sign ++ ds ++ rest) := hp.move_one
      rw [if_pos hb, run_bind, bump_one hlow]
      have hexp := exponent_accepts.complete (a := ()) hds ⟨sign, ds, rfl, hsign, hdigits⟩ hrest.2.2
      simpa [Except.bind] using hexp

/-- The parts of a number in one. -/
def numberBody : Parse Unit := do
  minus
  intPart
  fracPart
  expPart

theorem closed_head {rest : List Char} (h : Json.Closed rest) {c : Char}
    (hc : Json.isNumberChar c = true) : rest.head? ≠ some c := by
  intro hhead
  have := h c (by simp [hhead])
  simp [hc] at this

theorem closed_noDigit {rest : List Char} (h : Json.Closed rest) : NoDigit rest := by
  intro c hc
  have := h c hc
  simp only [Json.isNumberChar, Bool.or_eq_false_iff] at this
  exact this.1.1.1.1.1

theorem intPart_head {text rest : List Char} (h : IntPart text) :
    ∃ c cs, text ++ rest = c :: cs ∧ c.isDigit = true := by
  rcases h with rfl | ⟨⟨hne, hall⟩, -⟩
  · exact ⟨'0', rest, rfl, by decide⟩
  · obtain ⟨c, cs, rfl⟩ := List.exists_cons_of_ne_nil hne
    exact ⟨c, cs ++ rest, rfl, hall c (by simp)⟩

/-- What may follow the integer part inside a number. -/
theorem fracPart_follow {frac tail : List Char} (h : FracPart frac) (htail : NoDigit tail) :
    NoDigit (frac ++ tail) := by
  rcases h with rfl | ⟨ds, rfl, -⟩
  · exact htail
  · intro c hc
    cases hc
    decide

theorem expPart_follow {exp tail : List Char} (h : ExpPart exp) (htail : Json.Closed tail) :
    (exp ++ tail).head? ≠ some '.' ∧ NoDigit (exp ++ tail) := by
  rcases h with rfl | ⟨e, sign, ds, rfl, he, -, -⟩
  · exact ⟨closed_head htail (by decide), closed_noDigit htail⟩
  · constructor
    · intro hhead
      cases hhead
      rcases he with he | he <;> exact absurd he (by decide)
    · intro c hc
      cases hc
      rcases he with rfl | rfl <;> decide

theorem numberBody_accepts : Accepts numberBody (fun text _ => IsNumberToken text) Json.Closed := by
  have hfrac := fracPart_accepts.bind (fun _ => expPart_accepts.weaken (fun _ _ => Iff.rfl)
      fun rest (h : Json.Closed rest) => ⟨closed_head h (by decide), closed_head h (by decide),
        closed_noDigit h⟩)
    fun _ _ _ _ _ _ hexp htail => expPart_follow hexp htail
  have hint := intPart_accepts.bind (fun _ => hfrac) fun _ _ text _ tail _ hG htail => by
    obtain ⟨frac, _, exp, rfl, hfrac, hexp⟩ := hG
    rw [List.append_assoc]
    exact fracPart_follow hfrac (expPart_follow hexp htail).2
  have hminus := minus_accepts.bind (fun _ => hint) fun _ _ text _ tail _ hG _ => by
    obtain ⟨int, _, rest, rfl, hint, -⟩ := hG
    obtain ⟨c, cs, heq, hc⟩ := @intPart_head _ (rest ++ tail) hint
    rw [List.append_assoc, heq]
    rintro ⟨⟩
    exact absurd hc (by decide)
  refine hminus.weaken (fun text _ => ?_) fun _ h => h
  constructor
  · rintro ⟨sign, _, _, rfl, hsign, int, _, _, rfl, hint, frac, _, exp, rfl, hfrac, hexp⟩
    exact ⟨sign, int, frac, exp, rfl, hsign, hint, hfrac, hexp⟩
  · rintro ⟨sign, int, frac, exp, rfl, hsign, hint, hfrac, hexp⟩
    exact ⟨sign, (), _, rfl, hsign, int, (), _, rfl, hint, frac, (), exp, rfl, hfrac, hexp⟩

theorem number_accepts :
    Accepts number (fun text j => IsNumberToken text ∧ j = .number (String.ofList text))
      Json.Closed := by
  have hrun : ∀ p, number p = (numberBody p).bind fun r => numberToken p.cursor r.2 := by
    intro p
    have hbody : number = (get >>= fun s => numberBody >>= fun _ => numberToken s.cursor) := by
      simp only [number_eq, numberBody, bind_assoc]
    rw [hbody]
    rfl
  have htoken : ∀ {p : Parser} {text rest : List Char}, p.At (text ++ rest) →
      numberToken p.cursor (p.move text) = .ok (.number (String.ofList text), p.move text) := by
    intro p text rest hp
    have hcut := hp.cut (q := p.move text) rfl
    simp only [numberToken, run_bind, get, getThe, MonadStateOf.get, StateT.get, pure, Except.pure,
      Except.bind]
    rw [show (p.move text).cursor = p.cursor + (utf8 text).length from rfl, hcut]
    rfl
  constructor
  · intro p q rest j hp h
    rw [hrun, bind_ok_iff] at h
    obtain ⟨⟨_, r⟩, hr, hq⟩ := h
    obtain ⟨text, rest', rfl, hG, rfl⟩ := numberBody_accepts.sound hp hr
    simp only [htoken hp] at hq
    cases hq
    exact ⟨text, rest', rfl, ⟨hG, rfl⟩, rfl⟩
  · rintro p text rest j hp ⟨hG, rfl⟩ hrest
    rw [hrun, numberBody_accepts.complete (a := ()) hp hG hrest]
    exact htoken hp

/-! ### Literals -/

theorem literal_accepts (word : String) :
    Accepts (literal word) (fun text _ => text = word.toList) (fun _ => True) := by
  have hrest : ∀ {p : Parser} {rest : List Char}, p.At rest →
      dropBytes p.text p.cursor = some rest := by
    rintro p rest ⟨before, htext, hcursor⟩
    rw [htext, hcursor, dropBytes_utf8]
  have hbump : ∀ p : Parser, bump word.utf8ByteSize p = .ok ((), p.move word.toList) := by
    intro p
    rw [← length_utf8]
    rfl
  constructor
  · intro p q rest _ hp h
    simp only [literal, run_bind, get, getThe, MonadStateOf.get, StateT.get, pure, Except.pure,
      Except.bind, hrest hp] at h
    split_ifs at h with hprefix
    · rw [hbump] at h
      cases h
      obtain ⟨rest', rfl⟩ := List.isPrefixOf_iff_prefix.mp hprefix
      exact ⟨word.toList, rest', rfl, rfl, rfl⟩
    · exact absurd h error_ne_ok
  · rintro p _ rest _ hp rfl -
    simp only [literal, run_bind, get, getThe, MonadStateOf.get, StateT.get, pure, Except.pure,
      Except.bind, hrest hp]
    rw [if_pos (List.isPrefixOf_iff_prefix.mpr (List.prefix_append _ _)), hbump]

/-! ### Strings -/

/-- The content of a token up to its closing quote, as the scanner sees it. -/
inductive StringEnd : List Char → Prop
  | close : StringEnd ['\"']
  | escape {c text} : StringEnd text → StringEnd ('\\' :: c :: text)
  | plain {c text} : 0x20 ≤ c.toNat → c ≠ '\"' → c ≠ '\\' → StringEnd text → StringEnd (c :: text)

theorem scan_cons (byte : UInt8) (bytes : List UInt8) (cursor : ℕ) :
    scanString (byte :: bytes) cursor =
      if byte = 0x22 then .ok (cursor + 1)
      else if byte = 0x5c then
        match bytes with
        | [] => .error (cursor + 1, "unterminated string")
        | _ :: bytes => scanString bytes (cursor + 2)
      else if byte ≤ 0x1f then .error (cursor, "unescaped control character in string")
      else scanString bytes (cursor + 1) :=
  scanString.eq_def (byte :: bytes) cursor

theorem scan_quote (rest : List Char) (cursor : ℕ) :
    scanString (utf8 ('\"' :: rest)) cursor = .ok (cursor + 1) := by
  rw [utf8_cons, encodeChar_ascii (by decide)]
  show scanString (0x22 :: utf8 rest) cursor = _
  rw [scan_cons, if_pos rfl]

/-- Bytes of 0x80 and above are passed over. -/
theorem scan_high {bs : List UInt8} (h : ∀ b ∈ bs, 0x80 ≤ b.toNat) (rest : List UInt8)
    (cursor : ℕ) : scanString (bs ++ rest) cursor = scanString rest (cursor + bs.length) := by
  induction bs generalizing cursor with
  | nil => rfl
  | cons b bs ih =>
    have hb := h b (by simp)
    have hquote : b ≠ 0x22 := by
      rintro rfl
      exact absurd hb (by decide)
    have hslash : b ≠ 0x5c := by
      rintro rfl
      exact absurd hb (by decide)
    have hcontrol : ¬ b ≤ 0x1f := by
      rw [UInt8.le_iff_toNat_le]
      have h1f : (0x1f : UInt8).toNat = 31 := rfl
      omega
    rw [List.cons_append, scan_cons, if_neg hquote, if_neg hslash, if_neg hcontrol,
      ih (fun c hc => h c (List.mem_cons_of_mem _ hc)), List.length_cons]
    congr 1
    omega

theorem byteOf_ne {c : Char} (hc : c.toNat < 0x80) (hquote : c ≠ '\"') (hslash : c ≠ '\\') :
    byteOf c ≠ 0x22 ∧ byteOf c ≠ 0x5c := by
  constructor
  · intro h
    exact hquote (Char.toNat_inj.mp (ofNat_inj hc (n := 0x22) (by decide) h))
  · intro h
    exact hslash (Char.toNat_inj.mp (ofNat_inj hc (n := 0x5c) (by decide) h))

theorem scan_plain {c : Char} (hc : 0x20 ≤ c.toNat) (hquote : c ≠ '\"') (hslash : c ≠ '\\')
    (rest : List UInt8) (cursor : ℕ) :
    scanString (String.utf8EncodeChar c ++ rest) cursor =
      scanString rest (cursor + (String.utf8EncodeChar c).length) := by
  by_cases hlow : c.toNat < 0x80
  · have hbyte : byteOf c ≠ 0x22 ∧ byteOf c ≠ 0x5c := byteOf_ne hlow hquote hslash
    have hcontrol : ¬ byteOf c ≤ 0x1f := by
      rw [UInt8.le_iff_toNat_le, byteOf_toNat hlow]
      have h1f : (0x1f : UInt8).toNat = 31 := rfl
      omega
    rw [encodeChar_ascii hlow]
    show scanString (byteOf c :: rest) cursor = _
    rw [scan_cons, if_neg hbyte.1, if_neg hbyte.2, if_neg hcontrol]
    rfl
  · exact scan_high (encodeChar_high (not_lt.mp hlow)) rest cursor

theorem scan_escape (c : Char) (rest : List UInt8) (cursor : ℕ) :
    scanString (0x5c :: (String.utf8EncodeChar c ++ rest)) cursor =
      scanString rest (cursor + 1 + (String.utf8EncodeChar c).length) := by
  obtain ⟨b, bs, hb⟩ := List.exists_cons_of_ne_nil (encodeChar_ne_nil c)
  have hbs : ∀ d ∈ bs, 0x80 ≤ d.toNat := by
    by_cases hlow : c.toNat < 0x80
    · rw [encodeChar_ascii hlow] at hb
      cases hb
      simp
    · intro d hd
      exact encodeChar_high (not_lt.mp hlow) d (by simp [hb, hd])
  rw [hb, List.cons_append, scan_cons, if_neg (by decide), if_pos rfl]
  simp only
  rw [scan_high hbs, List.length_cons]
  congr 1
  omega

theorem scan_complete {text : List Char} (h : StringEnd text) (rest : List Char) (cursor : ℕ) :
    scanString (utf8 (text ++ rest)) cursor = .ok (cursor + (utf8 text).length) := by
  induction h generalizing cursor with
  | close =>
    rw [List.singleton_append, scan_quote, utf8_cons, encodeChar_ascii (by decide)]
    rfl
  | @escape c text _ ih =>
    rw [List.cons_append, List.cons_append, utf8_cons, utf8_cons,
      encodeChar_ascii (c := '\\') (by decide)]
    show scanString (0x5c :: (String.utf8EncodeChar c ++ utf8 (text ++ rest))) cursor = _
    rw [scan_escape, ih, utf8_cons, utf8_cons, encodeChar_ascii (c := '\\') (by decide)]
    simp only [List.length_append, List.length_singleton]
    congr 1
    omega
  | plain hc hquote hslash _ ih =>
    rw [List.cons_append, utf8_cons, scan_plain hc hquote hslash, ih, utf8_cons,
      List.length_append]
    congr 1
    omega

theorem scan_sound {rest : List Char} {cursor stop : ℕ}
    (h : scanString (utf8 rest) cursor = .ok stop) :
    ∃ text rest', rest = text ++ rest' ∧ StringEnd text ∧ stop = cursor + (utf8 text).length := by
  induction hn : rest.length using Nat.strong_induction_on generalizing rest cursor with
  | _ n ih =>
    cases rest with
    | nil => simp [scanString] at h
    | cons c rest =>
      by_cases hquote : c = '\"'
      · subst hquote
        rw [scan_quote] at h
        cases h
        exact ⟨['\"'], rest, rfl, .close, by rw [utf8_cons, encodeChar_ascii (by decide)]; rfl⟩
      · by_cases hslash : c = '\\'
        · subst hslash
          rw [utf8_cons, encodeChar_ascii (by decide)] at h
          cases rest with
          | nil => simp [scanString] at h
          | cons d rest =>
            change scanString (0x5c :: (String.utf8EncodeChar d ++ utf8 rest)) cursor = _ at h
            rw [scan_escape] at h
            obtain ⟨text, rest', rfl, hend, rfl⟩ := ih rest.length (by simp at hn; omega) h rfl
            refine ⟨'\\' :: d :: text, rest', rfl, .escape hend, ?_⟩
            rw [utf8_cons, utf8_cons, encodeChar_ascii (c := '\\') (by decide)]
            simp only [List.length_append, List.length_singleton]
            omega
        · by_cases hcontrol : 0x20 ≤ c.toNat
          · rw [utf8_cons, scan_plain hcontrol hquote hslash] at h
            obtain ⟨text, rest', rfl, hend, rfl⟩ := ih rest.length (by simp at hn; omega) h rfl
            refine ⟨c :: text, rest', rfl, .plain hcontrol hquote hslash hend, ?_⟩
            rw [utf8_cons, List.length_append]
            omega
          · have hlow : c.toNat < 0x80 := by omega
            have hbyte : byteOf c ≠ 0x22 ∧ byteOf c ≠ 0x5c := byteOf_ne hlow hquote hslash
            have hle : byteOf c ≤ 0x1f := by
              rw [UInt8.le_iff_toNat_le, byteOf_toNat hlow]
              have h1f : (0x1f : UInt8).toNat = 31 := rfl
              omega
            rw [utf8_cons, encodeChar_ascii hlow] at h
            change scanString (byteOf c :: utf8 rest) cursor = _ at h
            rw [scan_cons, if_neg hbyte.1, if_neg hbyte.2, if_pos hle] at h
            cases h

/-! ### Decoding a token -/

theorem hexValue_plain {c : Char} {n : ℕ} (h : hexValue c = some n) :
    0x20 ≤ c.toNat ∧ c ≠ '\"' ∧ c ≠ '\\' := by
  have hv : c.val.toNat = c.toNat := rfl
  refine ⟨?_, ?_, ?_⟩
  · unfold hexValue at h
    split_ifs at h with h1 h2 h3
    · simp only [Char.isDigit, Bool.and_eq_true, decide_eq_true_eq, UInt32.le_iff_toNat_le] at h1
      have h0 : '0'.val.toNat = 48 := rfl
      omega
    · simp only [Char.le_def, UInt32.le_iff_toNat_le] at h2
      have ha : 'a'.val.toNat = 97 := rfl
      omega
    · simp only [Char.le_def, UInt32.le_iff_toNat_le] at h3
      have ha : 'A'.val.toNat = 65 := rfl
      omega
  · rintro rfl
    rw [show hexValue '\"' = none by decide] at h
    cases h
  · rintro rfl
    rw [show hexValue '\\' = none by decide] at h
    cases h

theorem hex4_plain {a b c d : Char} {n : ℕ} (h : hex4 a b c d = some n) :
    ∀ e ∈ [a, b, c, d], 0x20 ≤ e.toNat ∧ e ≠ '\"' ∧ e ≠ '\\' := by
  simp only [hex4, bind, Option.bind_eq_some_iff, pure] at h
  obtain ⟨_, ha, _, hb, _, hc, _, hd, -⟩ := h
  simp only [List.forall_mem_cons]
  exact ⟨hexValue_plain ha, hexValue_plain hb, hexValue_plain hc, hexValue_plain hd, by simp⟩

theorem StringEnd.plains {cs text : List Char} (h : StringEnd text)
    (hcs : ∀ e ∈ cs, 0x20 ≤ e.toNat ∧ e ≠ '\"' ∧ e ≠ '\\') : StringEnd (cs ++ text) := by
  induction cs with
  | nil => exact h
  | cons c cs ih =>
    obtain ⟨hcontrol, hquote, hslash⟩ := hcs c (by simp)
    exact .plain hcontrol hquote hslash (ih fun e he => hcs e (List.mem_cons_of_mem _ he))

/-- The scanner stops at the quote that ends a well-formed token. -/
theorem stringEnd_of_body {body s : List Char} (h : StringBody body s) :
    StringEnd (body ++ ['\"']) := by
  induction h with
  | nil => exact .close
  | plain hcontrol hquote hslash _ ih => exact .plain hcontrol hquote hslash ih
  | escape _ _ ih => exact .escape ih
  | unicode hn _ _ _ ih =>
    have := ih.plains (hex4_plain hn)
    exact .escape this
  | surrogates hhigh _ hlow _ _ ih =>
    have hl : StringEnd _ := .escape (c := 'u') (ih.plains (hex4_plain hlow))
    have hh := hl.plains (hex4_plain hhigh)
    exact .escape hh

theorem decodeContent_sound {content s : List Char} (h : decodeContent content = some s) :
    ∃ body, content = body ++ ['\"'] ∧ StringBody body s := by
  fun_induction decodeContent content generalizing s with
  | case1 => cases h
  | case2 =>
    cases h
    exact ⟨[], rfl, .nil⟩
  | case3 => cases h
  | case4 a b c d rest ih2 ih1 =>
    obtain ⟨high, hhigh, h⟩ := Option.bind_eq_some_iff.mp h
    split_ifs at h with hlow hsurrogate
    · split at h
      · obtain ⟨low, hlow4, h⟩ := Option.bind_eq_some_iff.mp h
        split_ifs at h with hislow
        obtain ⟨t, ht, rfl⟩ := Option.map_eq_some_iff.mp h
        obtain ⟨body, rfl, hbody⟩ := ih2 ht
        exact ⟨_, rfl, .surrogates hhigh hsurrogate hlow4 hislow hbody⟩
      · cases h
    · obtain ⟨t, ht, rfl⟩ := Option.map_eq_some_iff.mp h
      obtain ⟨body, rfl, hbody⟩ := ih1 ht
      exact ⟨_, rfl, .unicode hhigh (by simpa using hsurrogate) (by simpa using hlow) hbody⟩
  | case5 e rest _ ih =>
    obtain ⟨c, hc, h⟩ := Option.bind_eq_some_iff.mp h
    obtain ⟨t, ht, rfl⟩ := Option.map_eq_some_iff.mp h
    obtain ⟨body, rfl, hbody⟩ := ih ht
    exact ⟨_, rfl, .escape hc hbody⟩
  | case6 => cases h
  | case7 c rest hquote _ _ hplain ih =>
    obtain ⟨t, ht, rfl⟩ := Option.map_eq_some_iff.mp h
    obtain ⟨body, rfl, hbody⟩ := ih ht
    simp only [not_or, not_lt] at hplain
    exact ⟨_, rfl, .plain hplain.1 hquote hplain.2 hbody⟩

theorem decodeContent_complete {body s : List Char} (h : StringBody body s) :
    decodeContent (body ++ ['\"']) = some s := by
  induction h with
  | nil => rfl
  | plain hcontrol hquote hslash _ ih =>
    rw [List.cons_append, decodeContent, if_neg (by simp [hslash, hcontrol]), ih, Option.map_some]
    · exact hquote
    · exact fun _ _ _ _ _ h => absurd h hslash
    · exact fun _ _ h => absurd h hslash
  | @escape e c text s hc _ ih =>
    have hu : e ≠ 'u' := by
      rintro rfl
      cases hc
    rw [List.cons_append, List.cons_append, decodeContent, hc, ih]
    · rfl
    · exact fun _ _ _ _ _ h => absurd h hu
  | unicode hn hhigh hlow _ ih =>
    simp only [List.cons_append, decodeContent, hn, hhigh, hlow, ih, Option.bind_eq_bind,
      Option.bind_some, Bool.false_eq_true, if_false, Option.map_some]
  | @surrogates a b c d e f g h high low text s hhigh hsurrogate hlow hislow _ ih =>
    have hnot : isLowSurrogate high = false := by
      simp only [isHighSurrogate, Bool.and_eq_true, decide_eq_true_eq] at hsurrogate
      simp only [isLowSurrogate, Bool.and_eq_false_iff, decide_eq_false_iff_not]
      omega
    simp only [List.cons_append, decodeContent, hhigh, hsurrogate, hlow, hislow, hnot, ih,
      Option.bind_eq_bind, Option.bind_some, Bool.false_eq_true, if_false, if_true, Option.map_some]

theorem decodeToken_iff {token : List Char} {s : String} :
    decodeToken token = some s ↔ IsStringToken token s := by
  constructor
  · intro h
    unfold decodeToken at h
    split at h
    · obtain ⟨cs, hcs, rfl⟩ := Option.map_eq_some_iff.mp h
      obtain ⟨body, rfl, hbody⟩ := decodeContent_sound hcs
      exact ⟨body, rfl, by simpa using hbody⟩
    · cases h
  · rintro ⟨body, rfl, hbody⟩
    rw [decodeToken, decodeContent_complete hbody, Option.map_some, String.ofList_toList]

/-- In front of a quote, `string` reads one token. -/
theorem string_run {p : Parser} {rest : List Char} (hp : p.At ('\"' :: rest)) :
    string p =
      match scanString (utf8 rest) (p.cursor + 1) with
      | .error (cursor, message) => error message { p with cursor := cursor }
      | .ok cursor => (cut p.cursor cursor >>= fun token =>
          match decodeToken token with
          | some s => pure s
          | none => error "invalid string token") { p with cursor := cursor } := by
  have hrest : (p.move ['\"']).At rest := hp.move_one
  have hcursor : (p.move ['\"']).cursor = p.cursor + 1 := by
    simp only [Parser.move, utf8_cons, encodeChar_ascii (c := '\"') (by decide)]
    rfl
  have hbytes := hrest.bytes
  rw [hcursor] at hbytes
  simp only [string, run_bind, get, getThe, MonadStateOf.get, StateT.get, pure, Except.pure,
    Except.bind, bump_one (p := p) (c := '\"') (by decide), hcursor, hbytes]
  cases scanString (utf8 rest) (p.cursor + 1) with
  | error e => rfl
  | ok cursor => rfl

theorem string_sound {p q : Parser} {rest : List Char} {s : String} (hp : p.At ('\"' :: rest))
    (h : string p = .ok (s, q)) :
    ∃ text rest', '\"' :: rest = text ++ rest' ∧ IsStringToken text s ∧ q = p.move text := by
  rw [string_run hp] at h
  cases hscan : scanString (utf8 rest) (p.cursor + 1) with
  | error e =>
    simp only [hscan] at h
    exact absurd h error_ne_ok
  | ok cursor =>
    obtain ⟨content, rest', rfl, -, rfl⟩ := scan_sound hscan
    have hsize : p.cursor + 1 + (utf8 content).length =
        p.cursor + (utf8 ('\"' :: content)).length := by
      rw [utf8_cons, encodeChar_ascii (by decide), List.length_append, List.length_singleton]
      omega
    have hcut := @At.cut p ('\"' :: content) rest' hp (p.move ('\"' :: content)) rfl
    simp only [hscan, hsize] at h
    change (cut _ _ >>= _) (p.move ('\"' :: content)) = _ at h
    rw [run_bind, hcut] at h
    simp only [Except.bind] at h
    cases htoken : decodeToken ('\"' :: content) with
    | none =>
      simp only [htoken] at h
      exact absurd h error_ne_ok
    | some t =>
      simp only [htoken] at h
      cases h
      exact ⟨_, rest', rfl, decodeToken_iff.mp htoken, rfl⟩

theorem string_complete {p : Parser} {text rest : List Char} {s : String} (hp : p.At (text ++ rest))
    (h : IsStringToken text s) : string p = .ok (s, p.move text) := by
  have htoken := decodeToken_iff.mpr h
  obtain ⟨body, rfl, hbody⟩ := h
  have hend := stringEnd_of_body hbody
  have hsize : p.cursor + 1 + (utf8 (body ++ ['\"'])).length =
      p.cursor + (utf8 ('\"' :: (body ++ ['\"']))).length := by
    rw [utf8_cons, encodeChar_ascii (by decide), List.length_append, List.length_singleton]
    omega
  have hcut := hp.cut (q := p.move ('\"' :: (body ++ ['\"']))) rfl
  rw [List.cons_append] at hp
  rw [string_run hp, scan_complete hend, hsize]
  change (cut _ _ >>= _) (p.move ('\"' :: (body ++ ['\"']))) = _
  rw [run_bind, hcut]
  simp only [Except.bind, htoken]
  rfl

end Parser
end MirrorRust
