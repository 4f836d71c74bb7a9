import MirrorRust.SpecFiles

/-! Comments and strings between two pieces of a source: to the scanner of imports they are a
blank. -/
namespace MirrorRust

/-! ### Comments and strings -/

/-- The text between `(*` and `*)`. Nested comments are balanced, and no other pair opens or closes
a comment, also not together with the `*)` after the text. -/
inductive CommentBody : List Char → Prop
  | nil : CommentBody []
  | nested {inner rest : List Char} (body : CommentBody inner) (more : CommentBody rest) :
      CommentBody ('(' :: '*' :: (inner ++ '*' :: ')' :: rest))
  | char {c : Char} {rest : List Char}
      (opens : ¬ (c = '(' ∧ (rest ++ ['*', ')']).head? = some '*'))
      (closes : ¬ (c = '*' ∧ (rest ++ ['*', ')']).head? = some ')'))
      (more : CommentBody rest) : CommentBody (c :: rest)

/-- The text between two quotes; a backslash takes the next character with it. -/
inductive QuotedBody : List Char → Prop
  | nil : QuotedBody []
  | escape {c : Char} {rest : List Char} (more : QuotedBody rest) : QuotedBody ('\\' :: c :: rest)
  | char {c : Char} {rest : List Char} (quote : c ≠ '\"') (escape : c ≠ '\\')
      (more : QuotedBody rest) : QuotedBody (c :: rest)

/-- A block comment, a line comment with its line feed, or a string literal. -/
inductive Trivia : List Char → Prop
  | block {body : List Char} (h : CommentBody body) : Trivia ('(' :: '*' :: (body ++ ['*', ')']))
  | line {body : List Char} (h : '\n' ∉ body) : Trivia ('\\' :: '*' :: (body ++ ['\n']))
  | string {body : List Char} (h : QuotedBody body) : Trivia ('\"' :: (body ++ ['\"']))

namespace Scan

/-! ### A scan in two parts -/

/-- The tokens that end in some bytes, and the mode after them, when the byte `next` follows. -/
def pass (next : Option UInt8) : Scan → List UInt8 → List String × Scan
  | mode, [] => ([], mode)
  | mode, b :: bytes =>
    let (ended, mode) := mode.advance b (bytes.head?.or next)
    let (later, mode) := pass next mode bytes
    (ended ++ later, mode)

def TopLevel : Scan → Prop
  | .code | .word _ => True
  | _ => False

theorem pass_append (next : Option UInt8) (mode : Scan) (xs ys : List UInt8) :
    pass next mode (xs ++ ys) =
      ((pass (ys.head?.or next) mode xs).1 ++ (pass next (pass (ys.head?.or next) mode xs).2 ys).1,
        (pass next (pass (ys.head?.or next) mode xs).2 ys).2) := by
  induction xs generalizing mode with
  | nil => rfl
  | cons b xs ih =>
    have hnext : (xs ++ ys).head?.or next = xs.head?.or (ys.head?.or next) := by
      rw [List.head?_append, Option.or_assoc]
    simp only [List.cons_append, pass, hnext, ih, List.append_assoc]

theorem tokens_append (mode : Scan) (xs ys : List UInt8) :
    tokens mode (xs ++ ys) = (pass ys.head? mode xs).1 ++ tokens (pass ys.head? mode xs).2 ys := by
  induction xs generalizing mode with
  | nil => rfl
  | cons b xs ih =>
    simp only [List.cons_append, pass, tokens, List.head?_append, ih, List.append_assoc]

theorem advance_top {mode : Scan} {b : UInt8} {next : Option UInt8}
    (htop : (mode.advance b none).2.TopLevel) (hnext : next ≠ some 0x2a) :
    mode.advance b next = mode.advance b none := by
  have henter : enter b next = enter b none := by simp [enter, hnext]
  cases mode with
  | code => simp only [advance, henter]
  | word letters => simp only [advance, henter]
  | block depth => simp [advance, TopLevel] at htop
  | line => rfl
  | text =>
    by_cases hb : b = 0x22
    · subst hb
      rfl
    · simp [advance, hb, TopLevel] at htop
  | skip mode => rfl

theorem pass_top {mode : Scan} {bytes : List UInt8} {next : Option UInt8}
    (htop : (pass none mode bytes).2.TopLevel) (hnext : next ≠ some 0x2a) :
    pass next mode bytes = pass none mode bytes := by
  induction bytes generalizing mode with
  | nil => rfl
  | cons b bytes ih =>
    have hadvance : mode.advance b (bytes.head?.or next) = mode.advance b (bytes.head?.or none) := by
      cases bytes with
      | nil => exact advance_top htop hnext
      | cons c bytes => rfl
    simp only [pass, hadvance]
    rw [@ih (mode.advance b (bytes.head?.or none)).2 htop]

/-! ### Bytes that are passed over -/

theorem pass_cons_nil {next : Option UInt8} {mode mode' : Scan} {b : UInt8} {bytes : List UInt8}
    (h : mode.advance b (bytes.head?.or next) = ([], mode')) :
    pass next mode (b :: bytes) = pass next mode' bytes := by
  simp only [pass, h, List.nil_append]

theorem pass_append_nil {next : Option UInt8} {mode mode' : Scan} {xs ys : List UInt8}
    (h : pass (ys.head?.or next) mode xs = ([], mode')) :
    pass next mode (xs ++ ys) = pass next mode' ys := by
  rw [pass_append, h]
  rfl

theorem pass_stays {mode : Scan} {bytes : List UInt8}
    (h : ∀ b ∈ bytes, ∀ next, mode.advance b next = ([], mode)) (next : Option UInt8) :
    pass next mode bytes = ([], mode) := by
  induction bytes with
  | nil => rfl
  | cons b bytes ih =>
    obtain ⟨hb, hbytes⟩ := List.forall_mem_cons.mp h
    rw [pass_cons_nil (hb _), ih hbytes]

theorem head?_utf8 {d : Char} (hd : d.toNat < 0x80) (text : List Char) :
    (utf8 text).head? = some (UInt8.ofNat d.toNat) ↔ text.head? = some d := by
  cases text with
  | nil => simp
  | cons c text =>
    rw [utf8_cons, List.head?_append_of_ne_nil _ (encodeChar_ne_nil c), List.head?_cons,
      Option.some.injEq]
    constructor
    · intro h
      exact (mem_encodeChar hd).mp (List.mem_of_mem_head? h)
    · rintro rfl
      rw [encodeChar_ascii hd]
      rfl

theorem byte_ne {b : UInt8} (hb : 0x80 ≤ b.toNat) {n : ℕ} (hn : n < 0x80) : b ≠ UInt8.ofNat n := by
  rintro rfl
  rw [UInt8.toNat_ofNat'] at hb
  omega

theorem advance_block_high {depth : ℕ} {b : UInt8} (hb : 0x80 ≤ b.toNat) (next : Option UInt8) :
    (block depth).advance b next = ([], .block depth) := by
  have hopen : b ≠ 0x28 := byte_ne hb (by decide)
  have hclose : b ≠ 0x2a := byte_ne hb (by decide)
  simp [advance, hopen, hclose]

theorem advance_text_high {b : UInt8} (hb : 0x80 ≤ b.toNat) (next : Option UInt8) :
    text.advance b next = ([], .text) := by
  have hescape : b ≠ 0x5c := byte_ne hb (by decide)
  have hquote : b ≠ 0x22 := byte_ne hb (by decide)
  simp [advance, hescape, hquote]

theorem ofNat_eq_iff {c d : Char} (hc : c.toNat < 0x80) (hd : d.toNat < 0x80) :
    UInt8.ofNat c.toNat = UInt8.ofNat d.toNat ↔ c = d :=
  ⟨fun h => Char.toNat_inj.mp (ofNat_inj hc hd h), fun h => h ▸ rfl⟩

theorem advance_block_char {depth : ℕ} {c : Char} (hc : c.toNat < 0x80) {rest : List Char}
    (hopen : ¬ (c = '(' ∧ rest.head? = some '*')) (hclose : ¬ (c = '*' ∧ rest.head? = some ')')) :
    (block depth).advance (UInt8.ofNat c.toNat) (utf8 rest).head? = ([], .block depth) := by
  have hstar : (utf8 rest).head? = some 0x2a ↔ rest.head? = some '*' :=
    @head?_utf8 '*' (by decide) rest
  have hparen : (utf8 rest).head? = some 0x29 ↔ rest.head? = some ')' :=
    @head?_utf8 ')' (by decide) rest
  have hleft : UInt8.ofNat c.toNat = 0x28 ↔ c = '(' := @ofNat_eq_iff c '(' hc (by decide)
  have hmiddle : UInt8.ofNat c.toNat = 0x2a ↔ c = '*' := @ofNat_eq_iff c '*' hc (by decide)
  simp only [advance, hstar, hparen, hleft, hmiddle]
  rw [if_neg hopen, if_neg hclose]

theorem pass_commentBody {body : List Char} (h : CommentBody body) (depth : ℕ) :
    pass (some 0x2a) (.block (depth + 1)) (utf8 body) = ([], .block (depth + 1)) := by
  induction h generalizing depth with
  | nil => rfl
  | @nested inner rest _ _ ihinner ihrest =>
    have hbytes : utf8 ('(' :: '*' :: (inner ++ '*' :: ')' :: rest)) =
        0x28 :: 0x2a :: (utf8 inner ++ 0x2a :: 0x29 :: utf8 rest) := by
      rw [utf8_cons, utf8_cons, utf8_append, utf8_cons, utf8_cons]
      rfl
    have hopen : (block (depth + 1)).advance 0x28 (some 0x2a) =
        ([], .skip (.block (depth + 2))) := rfl
    have hclose : (block (depth + 2)).advance 0x2a (some 0x29) =
        ([], .skip (.block (depth + 1))) := rfl
    have hskip : ∀ mode b next, (skip mode).advance b next = ([], mode) := fun _ _ _ => rfl
    have hinner : pass ((0x2a :: 0x29 :: utf8 rest).head?.or (some 0x2a)) (.block (depth + 2))
        (utf8 inner) = ([], .block (depth + 2)) := ihinner (depth + 1)
    rw [hbytes, pass_cons_nil hopen, pass_cons_nil (hskip _ _ _), pass_append_nil hinner,
      pass_cons_nil hclose, pass_cons_nil (hskip _ _ _)]
    exact ihrest depth
  | @char c rest hopen hclose _ ih =>
    have hnext : (utf8 rest).head?.or (some 0x2a) = (utf8 (rest ++ ['*', ')'])).head? := by
      rw [utf8_append, List.head?_append]
      rfl
    by_cases hc : c.toNat < 0x80
    · rw [utf8_cons, encodeChar_ascii hc, List.singleton_append, pass_cons_nil (by
        rw [hnext]
        exact advance_block_char hc hopen hclose)]
      exact ih depth
    · have hhigh := encodeChar_high (not_lt.mp hc)
      rw [utf8_cons, pass_append_nil (pass_stays (fun b hb next =>
        advance_block_high (hhigh b hb) next) _)]
      exact ih depth

theorem pass_lineBody {body : List Char} (h : '\n' ∉ body) (next : Option UInt8) :
    pass next .line (utf8 body) = ([], .line) := by
  refine pass_stays (fun b hb _ => ?_) next
  have hfeed : b ≠ 0x0a := by
    rintro rfl
    exact h ((@mem_utf8 '\n' (by decide) _).mp hb)
  simp [advance, hfeed]

theorem pass_quotedBody {body : List Char} (h : QuotedBody body) :
    pass (some 0x22) .text (utf8 body) = ([], .text) := by
  induction h with
  | nil => rfl
  | @escape c rest _ ih =>
    obtain ⟨b, bytes, hbytes⟩ := List.exists_cons_of_ne_nil (encodeChar_ne_nil c)
    have hescape : text.advance 0x5c (some b) = ([], .skip .text) := rfl
    have hskip : ∀ next, (skip .text).advance b next = ([], .text) := fun _ => rfl
    have hlow : bytes ≠ [] → 0x80 ≤ c.toNat := by
      intro hne
      by_contra hc
      rw [encodeChar_ascii (not_le.mp hc)] at hbytes
      exact hne (List.cons.inj hbytes).2.symm
    have hrest : ∀ b' ∈ bytes, ∀ next, text.advance b' next = ([], .text) := by
      intro b' hb' next
      refine advance_text_high (encodeChar_high (hlow (List.ne_nil_of_mem hb')) b' ?_) next
      rw [hbytes]
      exact List.mem_cons_of_mem _ hb'
    have hutf8 : utf8 ('\\' :: c :: rest) = 0x5c :: b :: (bytes ++ utf8 rest) := by
      rw [utf8_cons, utf8_cons, hbytes]
      rfl
    rw [hutf8, pass_cons_nil hescape, pass_cons_nil (hskip _), pass_append_nil (pass_stays hrest _)]
    exact ih
  | @char c rest hquote hescape _ ih =>
    have hadvance : ∀ b ∈ String.utf8EncodeChar c, ∀ next, text.advance b next = ([], .text) := by
      intro b hb next
      by_cases hc : c.toNat < 0x80
      · rw [encodeChar_ascii hc, List.mem_singleton] at hb
        have hb1 : b ≠ 0x5c := by
          rw [hb]
          exact fun h => hescape ((@ofNat_eq_iff c '\\' hc (by decide)).mp h)
        have hb2 : b ≠ 0x22 := by
          rw [hb]
          exact fun h => hquote ((@ofNat_eq_iff c '\"' hc (by decide)).mp h)
        simp [advance, hb1, hb2]
      · exact advance_text_high (encodeChar_high (not_lt.mp hc) b hb) next
    rw [utf8_cons, pass_append_nil (pass_stays hadvance _)]
    exact ih

theorem pass_enter {mode : Scan} (hmode : mode.TopLevel) {b : UInt8} (hword : isWordByte b = false)
    (hcomma : b ≠ 0x2c) (next : Option UInt8) (bytes : List UInt8) :
    pass next mode (b :: bytes) =
      (mode.flush ++ (pass next (enter b (bytes.head?.or next)) bytes).1,
        (pass next (enter b (bytes.head?.or next)) bytes).2) := by
  have hadvance : ∀ following, mode.advance b following = (mode.flush, enter b following) := by
    intro following
    cases mode with
    | code => simp [advance, hcomma]
    | word letters => simp [advance, hword, hcomma]
    | _ => exact absurd hmode id
  simp only [pass, hadvance]

/-- A comment or a string ends the word before it, and leaves the scanner in code. -/
theorem pass_trivia {item : List Char} (h : Trivia item) {mode : Scan} (hmode : mode.TopLevel)
    (next : Option UInt8) : pass next mode (utf8 item) = (mode.flush, .code) := by
  have hskip : ∀ mode b next, (skip mode).advance b next = ([], mode) := fun _ _ _ => rfl
  cases h with
  | @block body hbody =>
    have hbytes : utf8 ('(' :: '*' :: (body ++ ['*', ')'])) =
        0x28 :: 0x2a :: (utf8 body ++ [0x2a, 0x29]) := by
      rw [utf8_cons, utf8_cons, utf8_append]
      rfl
    have hinner : pass (([0x2a, 0x29] : List UInt8).head?.or next) (.block 1) (utf8 body) =
        ([], .block 1) := pass_commentBody hbody 0
    have hopen : enter 0x28 (some 0x2a) = .skip (.block 1) := rfl
    have hclose : pass next (.block 1) [0x2a, 0x29] = ([], .code) := rfl
    rw [hbytes, pass_enter hmode (by decide) (by decide), List.head?_cons, Option.some_or, hopen,
      pass_cons_nil (hskip _ _ _), pass_append_nil hinner, hclose, List.append_nil]
  | @line body hbody =>
    have hbytes : utf8 ('\\' :: '*' :: (body ++ ['\n'])) =
        0x5c :: 0x2a :: (utf8 body ++ [0x0a]) := by
      rw [utf8_cons, utf8_cons, utf8_append]
      rfl
    have hopen : enter 0x5c (some 0x2a) = .skip .line := rfl
    have hclose : pass next .line [0x0a] = ([], .code) := rfl
    rw [hbytes, pass_enter hmode (by decide) (by decide), List.head?_cons, Option.some_or, hopen,
      pass_cons_nil (hskip _ _ _), pass_append_nil (pass_lineBody hbody _), hclose,
      List.append_nil]
  | @string body hbody =>
    have hbytes : utf8 ('\"' :: (body ++ ['\"'])) = 0x22 :: (utf8 body ++ [0x22]) := by
      rw [utf8_cons, utf8_append]
      rfl
    have hinner : pass (([0x22] : List UInt8).head?.or next) .text (utf8 body) = ([], .text) :=
      pass_quotedBody hbody
    have hopen : ∀ following, enter 0x22 following = .text := fun _ => rfl
    have hclose : pass next .text [0x22] = ([], .code) := rfl
    rw [hbytes, pass_enter hmode (by decide) (by decide), hopen, pass_append_nil hinner, hclose,
      List.append_nil]

theorem pass_blank {mode : Scan} (hmode : mode.TopLevel) (next : Option UInt8) :
    pass next mode [0x20] = (mode.flush, .code) := by
  have henter : ∀ following, enter 0x20 following = .code := fun _ => rfl
  rw [pass_enter hmode (by decide) (by decide), henter]
  exact congrArg (·, code) (List.append_nil _)

theorem trivia_head {item : List Char} (h : Trivia item) : ∃ b, (utf8 item).head? = some b ∧
    b ≠ 0x2a := by
  cases h with
  | block => exact ⟨0x28, rfl, by decide⟩
  | line => exact ⟨0x5c, rfl, by decide⟩
  | string => exact ⟨0x22, rfl, by decide⟩

/-- The tokens around bytes that end a word and leave the scanner in code. -/
theorem tokens_around {before item after : List UInt8} (hbefore : (pass none .code before).2.TopLevel)
    (hhead : ∃ b, item.head? = some b ∧ b ≠ 0x2a)
    (hitem : ∀ mode next, TopLevel mode → pass next mode item = (mode.flush, .code)) :
    tokens .code (before ++ (item ++ after)) =
      (pass none .code before).1 ++ ((pass none .code before).2.flush ++ tokens .code after) := by
  obtain ⟨b, hb, hstar⟩ := hhead
  have hnext : (item ++ after).head? = some b := by rw [List.head?_append, hb, Option.some_or]
  rw [tokens_append, hnext, pass_top hbefore (fun h => hstar (Option.some.inj h)), tokens_append,
    hitem _ _ hbefore]

end Scan

/-- Scanning the source ends outside every comment and string. -/
def EndsAtTopLevel (source : String) : Prop :=
  (Scan.pass none .code (utf8 source.toList)).2.TopLevel

/-- A comment or a string between two pieces of a source imports what a blank there does. -/
theorem importNames_trivia {a b c : String} (ha : EndsAtTopLevel a) (hc : Trivia c.toList) :
    importNames (a ++ c ++ b) = importNames (a ++ " " ++ b) := by
  have htokens : dependencyTokens (a ++ c ++ b) = dependencyTokens (a ++ " " ++ b) := by
    unfold dependencyTokens
    simp only [String.toList_append, utf8_append, List.append_assoc]
    have hblank : utf8 " ".toList = [0x20] := rfl
    rw [Scan.tokens_around ha (Scan.trivia_head hc) fun _ next h => Scan.pass_trivia hc h next,
      hblank, Scan.tokens_around ha ⟨0x20, rfl, by decide⟩ fun _ next h => Scan.pass_blank h next]
  rw [importNames, importNames, htokens]

/-- A nested comment inside a list of imports. -/
theorem importNames_trivia_list :
    importNames ("EXTENDS A" ++ "(*,B(*C*)*)" ++ ", D") = importNames ("EXTENDS A" ++ " " ++ ", D") :=
  have hinner : CommentBody ['C'] := .char (by decide) (by decide) .nil
  have hbody : CommentBody [',', 'B', '(', '*', 'C', '*', ')'] :=
    .char (by decide) (by decide) (.char (by decide) (by decide) (.nested hinner .nil))
  importNames_trivia trivial (.block hbody)

end MirrorRust
