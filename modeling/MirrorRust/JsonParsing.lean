import MirrorRust.JsonTokens

/-! The parser accepts exactly the texts of the grammar that stay within its limits, and returns
the value they denote. -/
namespace MirrorRust
namespace Parser

/-! ### Runs of a parse -/

section
variable {α β : Type} {x : Parse α} {f : α → Parse β} {p q : Parser} {a : α} {r : β × Parser}

theorem bind_ok : (x >>= f) p = .ok r ↔ ∃ a q, x p = .ok (a, q) ∧ f a q = .ok r := by
  rw [run_bind, bind_ok_iff]
  constructor
  · rintro ⟨⟨a, q⟩, hx, hf⟩
    exact ⟨a, q, hx, hf⟩
  · rintro ⟨a, q, hx, hf⟩
    exact ⟨⟨a, q⟩, hx, hf⟩

theorem bind_run (h : x p = .ok (a, q)) : (x >>= f) p = f a q := by
  rw [run_bind, h]
  rfl

end

/-- The parser after it has read a text with `nodes` values. -/
def read (p : Parser) (text : List Char) (nodes : ℕ) : Parser :=
  { p with cursor := p.cursor + (utf8 text).length, nodes := p.nodes + nodes }

@[simp] theorem read_nodes (p : Parser) (text : List Char) (n : ℕ) :
    (p.read text n).nodes = p.nodes + n := rfl

@[simp] theorem read_limits (p : Parser) (text : List Char) (n : ℕ) :
    (p.read text n).limits = p.limits := rfl

@[simp] theorem read_read (p : Parser) (text rest : List Char) (m n : ℕ) :
    (p.read text m).read rest n = p.read (text ++ rest) (m + n) := by
  simp [read, Nat.add_assoc]

theorem move_eq_read (p : Parser) (text : List Char) : p.move text = p.read text 0 := rfl

theorem At.read {p : Parser} {text rest : List Char} (h : p.At (text ++ rest)) (n : ℕ) :
    (p.read text n).At rest := h.move

theorem At.read_cons {p : Parser} {c : Char} {text rest : List Char}
    (h : p.At (c :: (text ++ rest))) (n : ℕ) : (p.read (c :: text) n).At rest :=
  At.move (show p.At ((c :: text) ++ rest) from h)

theorem At.read_one {p : Parser} {c : Char} {rest : List Char} (h : p.At (c :: rest)) (n : ℕ) :
    (p.read [c] n).At rest := h.move_one

theorem bump_char {p : Parser} {c : Char} (hc : c.toNat < 0x80) :
    bump 1 p = .ok ((), p.read [c] 0) := bump_one hc

/-- The first character is no whitespace. -/
def NoWs (rest : List Char) : Prop := ∀ c ∈ rest.head?, isWs c = false

theorem skipWs_over {p : Parser} {w rest : List Char} (hp : p.At (w ++ rest)) (hw : Ws w)
    (hrest : NoWs rest) : skipWs p = .ok ((), p.read w 0) := by
  rw [hp.skipWs, takeWhile_stop hw hrest]
  rfl

/-- Whitespace is skipped as far as it goes. -/
theorem skipWs_run {p : Parser} {rest : List Char} (hp : p.At rest) :
    ∃ w rest', rest = w ++ rest' ∧ Ws w ∧ NoWs rest' ∧ skipWs p = .ok ((), p.read w 0) := by
  refine ⟨rest.takeWhile isWs, rest.dropWhile isWs, List.takeWhile_append_dropWhile.symm,
    fun c hc => List.mem_takeWhile_imp hc, fun c hc => ?_, hp.skipWs⟩
  have hhead := List.head?_dropWhile_not isWs rest
  rw [Option.mem_def.mp hc] at hhead
  exact hhead

theorem enter_ok {depth : ℕ} {p : Parser} {r : Unit × Parser} :
    enter depth p = .ok r ↔ depth < p.limits.maxDepth ∧ r = ((), p) := by
  simp only [enter, bind_run (p := p) (x := get) (a := p) (q := p) rfl]
  by_cases h : depth ≥ p.limits.maxDepth
  · rw [if_pos h]
    exact ⟨fun h => absurd h error_ne_ok, fun hr => absurd hr.1 (by omega)⟩
  · rw [if_neg h]
    constructor
    · rintro ⟨⟩
      exact ⟨by omega, rfl⟩
    · rintro ⟨-, rfl⟩
      rfl

/-! ### The equations of the parser -/

theorem error_bind {α β : Type} (message : String) (f : α → Parse β) :
    (error message >>= f) = error message := rfl

def tick (p : Parser) : Parser := { p with nodes := p.nodes + 1 }

def dispatch (fuel depth : ℕ) : Parse Json := do
  let next ← peek
  if next = some 0x7b then
    enter depth
    object fuel (depth + 1)
  else if next = some 0x5b then
    enter depth
    array fuel (depth + 1)
  else if next = some 0x22 then return .string (← string)
  else if next = some 0x74 then
    literal "true"
    return .bool true
  else if next = some 0x66 then
    literal "false"
    return .bool false
  else if next = some 0x6e then
    literal "null"
    return .null
  else if next = some 0x2d ∨ next.any isDigit then number
  else error "expected a JSON value"

theorem value_eq (fuel depth : ℕ) : value (fuel + 1) depth = (do
    skipWs
    modify tick
    let p ← get
    if p.nodes > p.limits.maxNodes then error ("JSON nodes exceed " ++ toString p.limits.maxNodes)
    else dispatch fuel depth) := by
  rw [value]
  refine bind_congr fun _ => bind_congr fun _ => bind_congr fun p => ?_
  by_cases hnodes : p.nodes > p.limits.maxNodes
  · rw [if_pos hnodes, if_pos hnodes, error_bind]
  · rw [if_neg hnodes, if_neg hnodes, dispatch]
    refine bind_congr fun o => ?_
    split
    iterate 6 rfl
    · rename_i b h1 h2 h3 h4 h5 h6
      have hb : ∀ c : UInt8, (some b = some c) = (b = c) := fun c => Option.some.injEq b c ▸ rfl
      simp only [hb, Option.any_some] at *
      rw [if_neg h1, if_neg h2, if_neg h3, if_neg h4, if_neg h5, if_neg h6]
    · rfl

theorem array_eq (fuel depth : ℕ) : array (fuel + 1) depth = (do
    bump 1
    skipWs
    if (← peek) = some 0x5d then
      bump 1
      return .array []
    else elements fuel depth []) := by
  rw [array]

theorem elements_eq (fuel depth : ℕ) (values : List Json) : elements (fuel + 1) depth values = (do
    let values := (← value fuel depth) :: values
    skipWs
    let next ← peek
    if next = some 0x2c then
      bump 1
      elements fuel depth values
    else if next = some 0x5d then
      bump 1
      return .array values.reverse
    else error "expected ',' or ']'") := by
  rw [elements]
  refine bind_congr fun j => bind_congr fun _ => bind_congr fun o => ?_
  split
  · rfl
  · rfl
  · rename_i h1 h2
    rw [if_neg h1, if_neg h2]

theorem object_eq (fuel depth : ℕ) : object (fuel + 1) depth = (do
    bump 1
    skipWs
    if (← peek) = some 0x7d then
      bump 1
      return .object []
    else members fuel depth .empty []) := by
  rw [object]

theorem members_eq (fuel depth : ℕ) (values : OrderedMap String Json) (keys : List String) :
    members (fuel + 1) depth values keys = (do
    skipWs
    if (← peek) = some 0x22 then
      let key ← string
      let p ← get
      if p.limits.rejectDuplicateKeys ∧ key ∈ keys then
        error ("duplicate object key '" ++ key ++ "'")
      else
        skipWs
        if (← peek) = some 0x3a then
          bump 1
          let item ← value fuel depth
          skipWs
          let next ← peek
          if next = some 0x2c then
            bump 1
            members fuel depth (values.insert key item) (key :: keys)
          else if next = some 0x7d then
            bump 1
            return .object (values.insert key item).entries
          else error "expected ',' or '\x7d'"
        else error "expected ':' after object key"
    else error "object key must be a string") := by
  rw [members]
  refine bind_congr fun _ => bind_congr fun o => ?_
  by_cases ho : o = some 0x22
  · rw [if_neg (not_not.mpr ho), if_pos ho]
    refine bind_congr fun key => bind_congr fun p => ?_
    split_ifs with hkey
    · exact error_bind _ _
    · refine bind_congr fun _ => bind_congr fun o => ?_
      by_cases ho : o = some 0x3a
      · rw [if_neg (not_not.mpr ho), if_pos ho]
        refine bind_congr fun _ => bind_congr fun item => bind_congr fun _ => bind_congr fun o => ?_
        split
        · rfl
        · rfl
        · rename_i h1 h2
          rw [if_neg h1, if_neg h2]
      · rw [if_pos ho, if_neg ho, error_bind]
  · rw [if_pos ho, if_neg ho, error_bind]

/-! ### Soundness -/

/-- A tree of the given size fits in at this depth and node count. -/
structure Room (p : Parser) (depth innerDepth nodes : ℕ) (distinct : Prop) : Prop where
  depth : depth + innerDepth ≤ p.limits.maxDepth
  nodes : p.nodes + nodes ≤ p.limits.maxNodes
  distinct : p.limits.rejectDuplicateKeys = true → distinct

def SoundValue (fuel : ℕ) : Prop :=
  ∀ {depth : ℕ} {p q : Parser} {rest : List Char} {j : Json}, p.At rest →
    depth ≤ p.limits.maxDepth → value fuel depth p = .ok (j, q) →
    ∃ a raw text rest', rest = a ++ (text ++ rest') ∧ Ws a ∧ Spells raw text ∧ j = raw.denote ∧
      p.Room depth raw.depth raw.nodes raw.Distinct ∧ q = p.read (a ++ text) raw.nodes

def SoundElements (fuel : ℕ) : Prop :=
  ∀ {depth : ℕ} {values : List Json} {p q : Parser} {rest : List Char} {j : Json}, p.At rest →
    depth ≤ p.limits.maxDepth → elements fuel depth values p = .ok (j, q) →
    ∃ items text rest', rest = text ++ (']' :: rest') ∧ SpellsItems items text ∧
      j = .array (values.reverse ++ Json.denoteItems items) ∧
      p.Room depth (Json.depthItems items) (Json.nodesItems items) (Json.DistinctItems items) ∧
      q = p.read (text ++ [']']) (Json.nodesItems items)

/-- No key occurs twice, also among the keys seen before. -/
def FreshKeys (keys : List String) (fields : List (String × Json)) : Prop :=
  (fields.map Prod.fst).Nodup ∧ ∀ key ∈ fields.map Prod.fst, key ∉ keys

/-- The members of an object put into a map one after the other. -/
def insertAll (values : List (String × Json)) (fields : List (String × Json)) :
    List (String × Json) :=
  fields.foldl (fun m field => Assoc.insert field.1 field.2 m) values

def SoundMembers (fuel : ℕ) : Prop :=
  ∀ {depth : ℕ} {values : OrderedMap String Json} {keys : List String} {p q : Parser}
    {rest : List Char} {j : Json}, p.At rest → depth ≤ p.limits.maxDepth →
    members fuel depth values keys p = .ok (j, q) →
    ∃ fields text rest', rest = text ++ ('}' :: rest') ∧ SpellsMembers fields text ∧
      j = .object (insertAll values.entries (Json.denoteFields fields)) ∧
      p.Room depth (Json.depthFields fields) (Json.nodesFields fields)
        (FreshKeys keys fields ∧ Json.DistinctFields fields) ∧
      q = p.read (text ++ ['}']) (Json.nodesFields fields)

theorem ws_nil : Ws [] := by simp [Ws]

/-- A value, then the whitespace after it. -/
theorem value_padded {fuel : ℕ} (ih : SoundValue fuel) {depth : ℕ} {p q : Parser}
    {rest : List Char} {j : Json} (hp : p.At rest) (hdepth : depth ≤ p.limits.maxDepth)
    (h : value fuel depth p = .ok (j, q)) :
    ∃ raw text rest', rest = text ++ rest' ∧ SpellsPadded raw text ∧ j = raw.denote ∧
      p.Room depth raw.depth raw.nodes raw.Distinct ∧
      skipWs q = .ok ((), p.read text raw.nodes) := by
  obtain ⟨a, raw, text, tail, rfl, ha, hspells, hj, hroom, rfl⟩ := ih hp hdepth h
  rw [← List.append_assoc] at hp
  obtain ⟨b, rest', rfl, hb, -, hskip⟩ := skipWs_run (hp.read raw.nodes)
  refine ⟨raw, a ++ (text ++ b), rest', by simp, .pad ha hspells hb, hj, hroom, ?_⟩
  rw [hskip, read_read, Nat.add_zero, List.append_assoc]

theorem soundElements_succ {fuel : ℕ} (hvalue : SoundValue fuel) (helements : SoundElements fuel) :
    SoundElements (fuel + 1) := by
  intro depth values p q rest j hp hdepth h
  rw [elements_eq] at h
  obtain ⟨item, r, hr, h⟩ := bind_ok.mp h
  obtain ⟨raw, text, tail, rfl, hspells, rfl, hroom, hskip⟩ := value_padded hvalue hp hdepth hr
  have hat : (p.read text raw.nodes).At tail := hp.read _
  rw [bind_run hskip, bind_run hat.peek] at h
  split_ifs at h with hcomma hclose
  · obtain ⟨cs, rfl⟩ := (next_is (d := ',') (by decide)).mp hcomma
    rw [bind_run (bump_char (c := ',') (by decide)), read_read] at h
    have hcs : (p.read (text ++ [',']) (raw.nodes + 0)).At cs :=
      At.read (by simpa using hp) _
    obtain ⟨items, text', rest', rfl, hitems, rfl, hroom', rfl⟩ := helements hcs hdepth h
    refine ⟨raw :: items, text ++ ',' :: text', rest', by simp, .cons hspells hitems,
      by simp [Json.denoteItems], ⟨?_, ?_, fun hreject => ?_⟩, ?_⟩
    · have h1 := hroom.depth
      have h2 := hroom'.depth
      simp only [Json.depthItems, read_limits] at h2 ⊢
      omega
    · have h2 := hroom'.nodes
      simp only [Json.nodesItems, read_limits, read_nodes] at h2 ⊢
      omega
    · exact ⟨hroom.distinct hreject, hroom'.distinct hreject⟩
    · simp [Json.nodesItems]
  · obtain ⟨cs, rfl⟩ := (next_is (d := ']') (by decide)).mp hclose
    rw [bind_run (bump_char (c := ']') (by decide)), read_read] at h
    cases h
    refine ⟨[raw], text, cs, rfl, .one hspells, by simp [Json.denoteItems],
      ⟨?_, ?_, fun hreject => ⟨hroom.distinct hreject, trivial⟩⟩, by simp [Json.nodesItems]⟩
    · have h1 := hroom.depth
      simp only [Json.depthItems]
      omega
    · have h1 := hroom.nodes
      simp only [Json.nodesItems]
      omega
  · exact absurd h error_ne_ok

/-- The head of a member: its key, and the colon with the whitespace around them. -/
theorem member_head {p q : Parser} {rest : List Char} {key : String}
    (hp : p.At ('\"' :: rest)) (hstring : string p = .ok (key, q)) :
    ∃ name b rest', '\"' :: rest = name ++ (b ++ rest') ∧ IsStringToken name key ∧ Ws b ∧
      NoWs rest' ∧ q = p.read name 0 ∧ skipWs q = .ok ((), p.read (name ++ b) 0) := by
  obtain ⟨name, tail, heq, hname, rfl⟩ := string_sound hp hstring
  rw [heq] at hp
  obtain ⟨b, rest', rfl, hb, hrest', hskip⟩ := skipWs_run (hp.read 0)
  refine ⟨name, b, rest', heq, hname, hb, hrest', rfl, ?_⟩
  rw [move_eq_read, hskip, read_read]

theorem freshKeys_cons {keys : List String} {key : String} {j : Json}
    {fields : List (String × Json)} (hkey : key ∉ keys) (h : FreshKeys (key :: keys) fields) :
    FreshKeys keys ((key, j) :: fields) := by
  obtain ⟨hnodup, hfresh⟩ := h
  constructor
  · exact List.nodup_cons.mpr ⟨fun hmem => hfresh key hmem (by simp), hnodup⟩
  · intro k hk
    rw [List.map_cons, List.mem_cons] at hk
    rcases hk with rfl | hk
    · exact hkey
    · exact fun hmem => hfresh k hk (by simp [hmem])

theorem soundMembers_succ {fuel : ℕ} (hvalue : SoundValue fuel) (hmembers : SoundMembers fuel) :
    SoundMembers (fuel + 1) := by
  intro depth values keys p q rest j hp hdepth h
  rw [members_eq] at h
  obtain ⟨a, rest, rfl, ha, -, hskip⟩ := skipWs_run hp
  have hat : (p.read a 0).At rest := hp.read 0
  rw [bind_run hskip, bind_run hat.peek] at h
  split_ifs at h with hquote
  swap
  · exact absurd h error_ne_ok
  obtain ⟨cs, rfl⟩ := (next_is (d := '\"') (by decide)).mp hquote
  obtain ⟨key, r, hr, h⟩ := bind_ok.mp h
  obtain ⟨name, b, rest, heq, hname, hb, -, rfl, hskip⟩ := member_head hat hr
  rw [heq] at hp hat ⊢
  rw [bind_run (x := get) (a := (p.read a 0).read name 0) (q := (p.read a 0).read name 0) rfl] at h
  split_ifs at h with hdup
  · exact absurd h error_ne_ok
  have hkey : p.limits.rejectDuplicateKeys = true → key ∉ keys :=
    fun hreject hmem => hdup ⟨hreject, hmem⟩
  have hat' : (p.read (a ++ (name ++ b)) 0).At rest := At.read (by simpa using hp) 0
  rw [bind_run hskip, read_read, bind_run hat'.peek] at h
  split_ifs at h with hcolon
  swap
  · exact absurd h error_ne_ok
  obtain ⟨cs, rfl⟩ := (next_is (d := ':') (by decide)).mp hcolon
  rw [bind_run (bump_char (c := ':') (by decide)), read_read] at h
  obtain ⟨item, r, hr, h⟩ := bind_ok.mp h
  have hcs : (p.read (a ++ (name ++ b) ++ [':']) (0 + 0 + 0)).At cs := At.read (by simpa using hp) _
  obtain ⟨raw, text, tail, rfl, hspells, rfl, hroom, hskip⟩ := value_padded hvalue hcs hdepth hr
  have hmember : SpellsMember (key, raw) (a ++ (name ++ (b ++ ':' :: text))) :=
    .pair ha hname hb hspells
  have hend := hcs.read raw.nodes
  rw [bind_run hskip, bind_run hend.peek] at h
  split_ifs at h with hcomma hclose
  · obtain ⟨cs, rfl⟩ := (next_is (d := ',') (by decide)).mp hcomma
    rw [bind_run (bump_char (c := ',') (by decide)), read_read, read_read] at h
    have hcs : (p.read (a ++ (name ++ b) ++ [':'] ++ (text ++ [','])) (0 + 0 + 0 + (raw.nodes + 0))).At cs :=
      At.read (by simpa using hp) _
    simp only [List.append_assoc] at h hcs
    obtain ⟨fields, text', rest', rfl, hfields, rfl, hroom', rfl⟩ := hmembers hcs hdepth h
    refine ⟨(key, raw) :: fields, _, rest', ?_, .cons hmember hfields, ?_, ⟨?_, ?_, fun hreject => ?_⟩, ?_⟩
    · simp
    · simp [Json.denoteFields, insertAll, OrderedMap.insert]
    · have h1 := hroom.depth
      have h2 := hroom'.depth
      simp only [Json.depthFields, read_limits] at h1 h2 ⊢
      omega
    · have h2 := hroom'.nodes
      simp only [Json.nodesFields, read_limits, read_nodes] at h2 ⊢
      omega
    · obtain ⟨hfresh, hdistinct⟩ := hroom'.distinct hreject
      exact ⟨freshKeys_cons (hkey hreject) hfresh, hroom.distinct hreject, hdistinct⟩
    · simp [Json.nodesFields]
  · obtain ⟨cs, rfl⟩ := (next_is (d := '}') (by decide)).mp hclose
    rw [bind_run (bump_char (c := '}') (by decide)), read_read, read_read] at h
    cases h
    refine ⟨[(key, raw)], _, cs, ?_, .one hmember, ?_, ⟨?_, ?_, fun hreject => ?_⟩, ?_⟩
    · simp
    · simp [Json.denoteFields, insertAll, OrderedMap.insert]
    · have h1 := hroom.depth
      simp only [Json.depthFields, read_limits] at h1 ⊢
      omega
    · have h1 := hroom.nodes
      simp only [Json.nodesFields, read_limits, read_nodes] at h1 ⊢
      omega
    · have hempty : FreshKeys (key :: keys) [] := ⟨List.nodup_nil, by simp⟩
      exact ⟨freshKeys_cons (hkey hreject) hempty, hroom.distinct hreject, trivial⟩
    · simp [Json.nodesFields]
  · exact absurd h error_ne_ok

/-- What `dispatch` reads in front of a value: the value itself, which is counted already. -/
def ReadsValue (p q : Parser) (depth : ℕ) (rest : List Char) (j : Json) : Prop :=
  ∃ raw text rest' n, rest = text ++ rest' ∧ Spells raw text ∧ j = raw.denote ∧ raw.nodes = n + 1 ∧
    p.Room depth raw.depth n raw.Distinct ∧ q = p.read text n

theorem readsValue_leaf {p : Parser} {depth : ℕ} {text rest : List Char} {raw : Json}
    (hspells : Spells raw text) (hdenote : raw.denote = raw) (hleaf : raw.depth = 0)
    (hone : raw.nodes = 1) (hdistinct : raw.Distinct) (hdepth : depth ≤ p.limits.maxDepth)
    (hnodes : p.nodes ≤ p.limits.maxNodes) : ReadsValue p (p.move text) depth (text ++ rest) raw :=
  ⟨raw, text, rest, 0, rfl, hspells, hdenote.symm, by omega,
    ⟨by omega, hnodes, fun _ => hdistinct⟩, rfl⟩

theorem panic_ne_ok {α : Type} {message : String} {p : Parser} {r : α × Parser} :
    (throw (.panic message) : Parse α) p ≠ .ok r := nofun

theorem array_sound {fuel : ℕ} (helements : ∀ n < fuel, SoundElements n) {depth : ℕ} {p q : Parser}
    {cs : List Char} {j : Json} (hp : p.At ('[' :: cs)) (hdepth : depth < p.limits.maxDepth)
    (hnodes : p.nodes ≤ p.limits.maxNodes) (h : array fuel (depth + 1) p = .ok (j, q)) :
    ReadsValue p q depth ('[' :: cs) j := by
  have hcs : (p.read ['['] 0).At cs := hp.read_one 0
  obtain ⟨w, rest, rfl, hw, -, hskip⟩ := skipWs_run hcs
  have hat := hcs.read 0
  obtain _ | fuel := fuel
  · rw [array] at h
    exact absurd h panic_ne_ok
  rw [array_eq, bind_run (bump_char (c := '[') (by decide)), bind_run hskip, bind_run hat.peek] at h
  split_ifs at h with hclose
  · obtain ⟨tail, rfl⟩ := (next_is (d := ']') (by decide)).mp hclose
    rw [bind_run (bump_char (c := ']') (by decide)), read_read, read_read] at h
    cases h
    have hroom : p.Room depth 1 0 True := ⟨hdepth, hnodes, fun _ => trivial⟩
    exact ⟨.array [], '[' :: (w ++ [']']), tail, 0, by simp, .emptyArray hw, rfl, rfl, hroom,
      by simp⟩
  · obtain ⟨items, text, rest', rfl, hitems, rfl, hroom, rfl⟩ := helements fuel (by omega) hat hdepth h
    have htext : SpellsItems items (w ++ text) := hitems.front hw
    refine ⟨.array items, _, rest', Json.nodesItems items, ?_, .array htext, rfl, rfl,
      ⟨?_, ?_, hroom.distinct⟩, ?_⟩
    · simp
    · have h1 := hroom.depth
      simp only [Json.depth, read_limits] at h1 ⊢
      omega
    · simpa using hroom.nodes
    · simp

theorem object_sound {fuel : ℕ} (hmembers : ∀ n < fuel, SoundMembers n) {depth : ℕ} {p q : Parser}
    {cs : List Char} {j : Json} (hp : p.At ('{' :: cs)) (hdepth : depth < p.limits.maxDepth)
    (hnodes : p.nodes ≤ p.limits.maxNodes) (h : object fuel (depth + 1) p = .ok (j, q)) :
    ReadsValue p q depth ('{' :: cs) j := by
  have hcs : (p.read ['{'] 0).At cs := hp.read_one 0
  obtain ⟨w, rest, rfl, hw, -, hskip⟩ := skipWs_run hcs
  have hat := hcs.read 0
  obtain _ | fuel := fuel
  · rw [object] at h
    exact absurd h panic_ne_ok
  rw [object_eq, bind_run (bump_char (c := '{') (by decide)), bind_run hskip,
    bind_run hat.peek] at h
  split_ifs at h with hclose
  · obtain ⟨tail, rfl⟩ := (next_is (d := '}') (by decide)).mp hclose
    rw [bind_run (bump_char (c := '}') (by decide)), read_read, read_read] at h
    cases h
    have hroom : p.Room depth 1 0 (([] : List String).Nodup ∧ True) :=
      ⟨hdepth, hnodes, fun _ => ⟨List.nodup_nil, trivial⟩⟩
    exact ⟨.object [], '{' :: (w ++ ['}']), tail, 0, by simp, .emptyObject hw, rfl, rfl, hroom,
      by simp⟩
  · obtain ⟨fields, text, rest', rfl, hfields, rfl, hroom, rfl⟩ := hmembers fuel (by omega) hat hdepth h
    have htext : SpellsMembers fields (w ++ text) := hfields.front hw
    refine ⟨.object fields, _, rest', Json.nodesFields fields, ?_, .object htext, rfl, rfl,
      ⟨?_, ?_, fun hreject => ?_⟩, ?_⟩
    · simp
    · have h1 := hroom.depth
      simp only [Json.depth, read_limits] at h1 ⊢
      omega
    · simpa using hroom.nodes
    · obtain ⟨⟨hnodup, -⟩, hdistinct⟩ := hroom.distinct hreject
      exact ⟨hnodup, hdistinct⟩
    · simp

theorem literal_sound (word : String) (raw : Json) {p q : Parser} {rest : List Char} {j : Json}
    {depth : ℕ} (hspells : Spells raw word.toList) (hdenote : raw.denote = raw)
    (hleaf : raw.depth = 0) (hone : raw.nodes = 1) (hdistinct : raw.Distinct) (hp : p.At rest)
    (hdepth : depth ≤ p.limits.maxDepth) (hnodes : p.nodes ≤ p.limits.maxNodes)
    (h : (literal word >>= fun _ => pure raw) p = .ok (j, q)) : ReadsValue p q depth rest j := by
  obtain ⟨_, r, hr, h⟩ := bind_ok.mp h
  obtain ⟨text, rest', rfl, rfl, rfl⟩ := (literal_accepts word).sound hp hr
  cases h
  exact readsValue_leaf hspells hdenote hleaf hone hdistinct hdepth hnodes

theorem dispatch_sound {fuel : ℕ} (helements : ∀ n < fuel, SoundElements n)
    (hmembers : ∀ n < fuel, SoundMembers n)
    {depth : ℕ} {p q : Parser} {rest : List Char} {j : Json} (hp : p.At rest)
    (hdepth : depth ≤ p.limits.maxDepth) (hnodes : p.nodes ≤ p.limits.maxNodes)
    (h : dispatch fuel depth p = .ok (j, q)) : ReadsValue p q depth rest j := by
  rw [dispatch, bind_run hp.peek] at h
  split_ifs at h with hobject harray hstring htrue hfalse hnull hnumber
  · obtain ⟨cs, rfl⟩ := (next_is (d := '{') (by decide)).mp hobject
    obtain ⟨_, r, hr, h⟩ := bind_ok.mp h
    obtain ⟨hlt, ⟨⟩⟩ := enter_ok.mp hr
    exact object_sound hmembers hp hlt hnodes h
  · obtain ⟨cs, rfl⟩ := (next_is (d := '[') (by decide)).mp harray
    obtain ⟨_, r, hr, h⟩ := bind_ok.mp h
    obtain ⟨hlt, ⟨⟩⟩ := enter_ok.mp hr
    exact array_sound helements hp hlt hnodes h
  · obtain ⟨cs, rfl⟩ := (next_is (d := '\"') (by decide)).mp hstring
    obtain ⟨s, r, hr, h⟩ := bind_ok.mp h
    obtain ⟨text, rest', heq, htoken, rfl⟩ := string_sound hp hr
    cases h
    rw [heq]
    exact readsValue_leaf (.string htoken) rfl rfl rfl trivial hdepth hnodes
  · exact literal_sound "true" (.bool true) .true rfl rfl rfl trivial hp hdepth hnodes h
  · exact literal_sound "false" (.bool false) .false rfl rfl rfl trivial hp hdepth hnodes h
  · exact literal_sound "null" .null .null rfl rfl rfl trivial hp hdepth hnodes h
  · obtain ⟨text, rest', rfl, ⟨htoken, rfl⟩, rfl⟩ := number_accepts.sound hp h
    exact readsValue_leaf (.number htoken) rfl rfl rfl trivial hdepth hnodes
  · exact absurd h error_ne_ok

/-- The start of `value`: the whitespace, and the count of the value. -/
theorem value_run {p : Parser} {rest : List Char} (hp : p.At rest) (fuel depth : ℕ) :
    ∃ w rest', rest = w ++ rest' ∧ Ws w ∧ NoWs rest' ∧
      value (fuel + 1) depth p =
        (if p.nodes + 1 > p.limits.maxNodes then
          error ("JSON nodes exceed " ++ toString p.limits.maxNodes)
        else dispatch fuel depth) (p.read w 1) := by
  obtain ⟨w, rest', rfl, hw, hrest', hskip⟩ := skipWs_run hp
  refine ⟨w, rest', rfl, hw, hrest', ?_⟩
  have htick : (modify tick : Parse Unit) (p.read w 0) = .ok ((), p.read w 1) := rfl
  rw [value_eq, bind_run hskip, bind_run htick,
    bind_run (x := get) (a := p.read w 1) (q := p.read w 1) rfl]
  rfl

theorem soundValue_succ {fuel : ℕ} (helements : ∀ n < fuel, SoundElements n)
    (hmembers : ∀ n < fuel, SoundMembers n) :
    SoundValue (fuel + 1) := by
  intro depth p q rest j hp hdepth h
  obtain ⟨w, rest, rfl, hw, -, hrun⟩ := value_run hp fuel depth
  rw [hrun] at h
  split_ifs at h with hnodes
  · exact absurd h error_ne_ok
  · obtain ⟨raw, text, rest', n, rfl, hspells, rfl, hn, hroom, rfl⟩ :=
      dispatch_sound helements hmembers (hp.read 1) hdepth (by simpa using hnodes) h
    refine ⟨w, raw, text, rest', rfl, hw, hspells, rfl, ⟨hroom.depth, ?_, hroom.distinct⟩, ?_⟩
    · have h1 := hroom.nodes
      simp only [read_nodes, read_limits] at h1
      omega
    · rw [read_read, hn, Nat.add_comm n]

theorem sound (fuel : ℕ) : SoundValue fuel ∧ SoundElements fuel ∧ SoundMembers fuel := by
  induction fuel using Nat.strong_induction_on with
  | _ fuel ih =>
    cases fuel with
    | zero =>
      refine ⟨fun {_ _ _ _ _} _ _ h => ?_, fun {_ _ _ _ _ _} _ _ h => ?_,
        fun {_ _ _ _ _ _ _} _ _ h => ?_⟩
      · rw [value] at h
        exact absurd h panic_ne_ok
      · rw [elements] at h
        exact absurd h panic_ne_ok
      · rw [members] at h
        exact absurd h panic_ne_ok
    | succ fuel =>
      obtain ⟨hvalue, helements, hmembers⟩ := ih fuel (by omega)
      exact ⟨soundValue_succ (fun n hn => (ih n (by omega)).2.1) fun n hn => (ih n (by omega)).2.2,
        soundElements_succ hvalue helements, soundMembers_succ hvalue hmembers⟩

/-! ### Completeness -/

/-- Where a value can end, with the whitespace after it read. -/
def Stop (rest : List Char) : Prop := NoWs rest ∧ Json.Closed rest

theorem stop_cons {c : Char} {cs : List Char} (hws : isWs c = false)
    (hnumber : Json.isNumberChar c = false) : Stop (c :: cs) := by
  constructor
  · intro d hd
    cases hd
    exact hws
  · exact Json.closed_cons hnumber

theorem ws_closed {w rest : List Char} (hw : Ws w) (hrest : Json.Closed rest) :
    Json.Closed (w ++ rest) := by
  cases w with
  | nil => exact hrest
  | cons c w =>
    have hc := hw c (by simp)
    refine Json.closed_cons ?_
    simp only [isWs, Bool.or_eq_true, beq_iff_eq] at hc
    rcases hc with ((rfl | rfl) | rfl) | rfl <;> decide

/-- What `dispatch` does in front of a character. -/
theorem dispatch_run {p : Parser} {c : Char} {cs : List Char} (hp : p.At (c :: cs))
    (hc : c.toNat < 0x80) (fuel depth : ℕ) : dispatch fuel depth p =
      (if c = '{' then enter depth >>= fun _ => object fuel (depth + 1)
      else if c = '[' then enter depth >>= fun _ => array fuel (depth + 1)
      else if c = '\"' then string >>= fun s => pure (.string s)
      else if c = 't' then literal "true" >>= fun _ => pure (.bool true)
      else if c = 'f' then literal "false" >>= fun _ => pure (.bool false)
      else if c = 'n' then literal "null" >>= fun _ => pure .null
      else if c = '-' ∨ c.isDigit = true then number
      else error "expected a JSON value") p := by
  have hnext : ∀ (b : UInt8) (d : Char), d.toNat < 0x80 → byteOf d = b →
      ((utf8 (c :: cs)).head? = some b ↔ c = d) := by
    rintro b d hd rfl
    rw [head_utf8 hd, List.head?_cons, Option.some.injEq]
  have hdigit : (utf8 (c :: cs)).head?.any isDigit = c.isDigit := by
    rw [(head_utf8 hc).mpr rfl, Option.any_some, ← charOf_isDigit, charOf]
    simp [hc]
  rw [dispatch, bind_run hp.peek]
  simp only [hnext 0x7b '{' (by decide) rfl, hnext 0x5b '[' (by decide) rfl,
    hnext 0x22 '\"' (by decide) rfl, hnext 0x74 't' (by decide) rfl,
    hnext 0x66 'f' (by decide) rfl, hnext 0x6e 'n' (by decide) rfl,
    hnext 0x2d '-' (by decide) rfl, hdigit]

def CompleteValue (fuel : ℕ) : Prop :=
  ∀ {depth : ℕ} {p : Parser} {a text rest : List Char} {raw : Json}, p.At (a ++ (text ++ rest)) →
    Ws a → Spells raw text → Json.Closed rest → p.Room depth raw.depth raw.nodes raw.Distinct →
    2 * text.length ≤ fuel →
    value fuel depth p = .ok (raw.denote, p.read (a ++ text) raw.nodes)

def CompleteElements (fuel : ℕ) : Prop :=
  ∀ {depth : ℕ} {values : List Json} {p : Parser} {text rest : List Char} {items : List Json},
    p.At (text ++ ']' :: rest) → SpellsItems items text →
    p.Room depth (Json.depthItems items) (Json.nodesItems items) (Json.DistinctItems items) →
    2 * text.length + 1 ≤ fuel →
    elements fuel depth values p = .ok (.array (values.reverse ++ Json.denoteItems items),
      p.read (text ++ [']']) (Json.nodesItems items))

def CompleteMembers (fuel : ℕ) : Prop :=
  ∀ {depth : ℕ} {values : OrderedMap String Json} {keys : List String} {p : Parser}
    {text rest : List Char} {fields : List (String × Json)},
    p.At (text ++ '}' :: rest) → SpellsMembers fields text →
    p.Room depth (Json.depthFields fields) (Json.nodesFields fields)
      (FreshKeys keys fields ∧ Json.DistinctFields fields) →
    2 * text.length + 1 ≤ fuel →
    members fuel depth values keys p =
      .ok (.object (insertAll values.entries (Json.denoteFields fields)),
        p.read (text ++ ['}']) (Json.nodesFields fields))

theorem padded_complete {fuel : ℕ} (ih : CompleteValue fuel) {depth : ℕ} {p : Parser}
    {text rest : List Char} {raw : Json} (hp : p.At (text ++ rest)) (h : SpellsPadded raw text)
    (hrest : Stop rest) (hroom : p.Room depth raw.depth raw.nodes raw.Distinct)
    (hfuel : 2 * text.length ≤ fuel) :
    ∃ q, value fuel depth p = .ok (raw.denote, q) ∧
      skipWs q = .ok ((), p.read text raw.nodes) := by
  obtain @⟨_, a, text, b, ha, hspells, hb⟩ := h
  have hvalue : p.At (a ++ (text ++ (b ++ rest))) := by simpa using hp
  have hend : p.At ((a ++ text) ++ (b ++ rest)) := by simpa using hp
  rw [List.length_append, List.length_append] at hfuel
  refine ⟨_, ih hvalue ha hspells (ws_closed hb hrest.2) hroom (by omega), ?_⟩
  rw [skipWs_over (hend.read _) hb hrest.1, read_read, List.append_assoc, Nat.add_zero]

theorem Room.left {p : Parser} {depth d e m n : ℕ} {P Q : Prop}
    (h : p.Room depth (max d e) (m + n) (P ∧ Q)) : p.Room depth d m P where
  depth := by
    have := h.depth
    omega
  nodes := by
    have := h.nodes
    omega
  distinct hreject := (h.distinct hreject).1

theorem Room.right {p : Parser} {depth d e m n : ℕ} {P Q : Prop} (text : List Char)
    (h : p.Room depth (max d e) (m + n) (P ∧ Q)) : (p.read text m).Room depth e n Q where
  depth := by
    have := h.depth
    simp only [read_limits]
    omega
  nodes := by
    have := h.nodes
    simp only [read_limits, read_nodes]
    omega
  distinct hreject := (h.distinct hreject).2

theorem completeElements_succ {fuel : ℕ} (hvalue : CompleteValue fuel)
    (helements : CompleteElements fuel) : CompleteElements (fuel + 1) := by
  intro depth values p text rest items hp hitems hroom hfuel
  rw [elements_eq]
  cases hitems with
  | @one raw _ h =>
    obtain ⟨q, hq, hskip⟩ := padded_complete hvalue hp h
      (stop_cons (by decide) (by decide)) hroom.left (by omega)
    have hend := hp.read raw.nodes
    rw [bind_run hq, bind_run hskip, bind_run hend.peek,
      if_neg (next_ne 0x2c ',' (by decide) rfl (by simp)),
      if_pos (next_cons 0x5d ']' rest (by decide) rfl), bind_run (bump_char (c := ']') (by decide)),
      read_read]
    simp only [List.reverse_cons]
    rfl
  | @cons raw items text tail h hs =>
    rw [List.append_assoc, List.cons_append] at hp
    rw [List.length_append, List.length_cons] at hfuel
    obtain ⟨q, hq, hskip⟩ := padded_complete hvalue hp h
      (stop_cons (by decide) (by decide)) hroom.left (by omega)
    have hend := hp.read raw.nodes
    have htail : (p.read (text ++ [',']) raw.nodes).At (tail ++ ']' :: rest) :=
      At.read (by simpa using hp) _
    rw [bind_run hq, bind_run hskip, bind_run hend.peek,
      if_pos (next_cons 0x2c ',' (tail ++ ']' :: rest) (by decide) rfl),
      bind_run (bump_char (c := ',') (by decide)), read_read, Nat.add_zero,
      helements htail hs (hroom.right _) (by omega)]
    simp [Json.denoteItems, Json.nodesItems]

/-- One member is read, up to the comma or the brace after it. -/
theorem member_complete {fuel : ℕ} (hvalue : CompleteValue fuel) {depth : ℕ}
    {values : OrderedMap String Json} {keys : List String} {p : Parser} {text rest : List Char}
    {key : String} {raw : Json} (hp : p.At (text ++ rest)) (h : SpellsMember (key, raw) text)
    (hrest : Stop rest) (hkey : p.limits.rejectDuplicateKeys = true → key ∉ keys)
    (hroom : p.Room depth raw.depth raw.nodes raw.Distinct) (hfuel : 2 * text.length ≤ fuel) :
    members (fuel + 1) depth values keys p = (do
      let next ← peek
      if next = some 0x2c then
        bump 1
        members fuel depth (values.insert key raw.denote) (key :: keys)
      else if next = some 0x7d then
        bump 1
        return .object (values.insert key raw.denote).entries
      else error "expected ',' or '\x7d'") (p.read text raw.nodes) := by
  rw [members_eq]
  obtain @⟨_, _, a, name, b, text, ha, hname, hb, hspells⟩ := h
  obtain ⟨body, hquote, hbody⟩ := id hname
  have hstart : p.At (a ++ (name ++ (b ++ ':' :: (text ++ rest)))) := by simpa using hp
  have hsecond : p.At ((a ++ name) ++ (b ++ ':' :: (text ++ rest))) := by simpa using hp
  have hthird : p.At ((a ++ name ++ b) ++ ':' :: (text ++ rest)) := by simpa using hp
  have hfourth : p.At ((a ++ name ++ b ++ [':']) ++ (text ++ rest)) := by simpa using hp
  have hnoWs : NoWs (name ++ (b ++ ':' :: (text ++ rest))) := by
    rw [hquote]
    exact (stop_cons (by decide) (by decide)).1
  have hpeek : peek (p.read a 0) = .ok (some 0x22, p.read a 0) := by
    have hat := hstart.read 0
    rw [hquote] at hat
    exact peek_cons hat (by decide)
  have hlength : 2 * text.length ≤ fuel := by
    simp only [List.length_append, List.length_cons] at hfuel
    omega
  have hreject : ¬ (p.limits.rejectDuplicateKeys = true ∧ key ∈ keys) := fun h => hkey h.1 h.2
  obtain ⟨q, hq, hskip⟩ := padded_complete hvalue (hfourth.read 0) hspells hrest
    (by exact ⟨hroom.depth, by simpa using hroom.nodes, hroom.distinct⟩) hlength
  rw [bind_run (skipWs_over hstart ha hnoWs), bind_run hpeek, if_pos rfl,
    bind_run (string_complete (hstart.read 0) hname), move_eq_read, read_read,
    bind_run (x := get) (a := p.read (a ++ name) 0) (q := p.read (a ++ name) 0) rfl]
  rw [read_limits, if_neg hreject,
    bind_run (skipWs_over (hsecond.read 0) hb (stop_cons (by decide) (by decide)).1), read_read,
    bind_run (hthird.read 0).peek, if_pos (next_cons 0x3a ':' (text ++ rest) (by decide) rfl),
    bind_run (bump_char (c := ':') (by decide)), read_read, bind_run hq, bind_run hskip, read_read]
  simp

theorem freshKeys_head {keys : List String} {key : String} {j : Json}
    {fields : List (String × Json)} (h : FreshKeys keys ((key, j) :: fields)) :
    key ∉ keys ∧ FreshKeys (key :: keys) fields := by
  obtain ⟨hnodup, hfresh⟩ := h
  obtain ⟨hkey, hnodup⟩ := List.nodup_cons.mp hnodup
  refine ⟨hfresh key (by simp), hnodup, fun k hk hmem => ?_⟩
  rcases List.mem_cons.mp hmem with rfl | hmem
  · exact hkey hk
  · exact hfresh k (by simp [hk]) hmem

theorem completeMembers_succ {fuel : ℕ} (hvalue : CompleteValue fuel)
    (hmembers : CompleteMembers fuel) : CompleteMembers (fuel + 1) := by
  intro depth values keys p text rest fields hp hfields hroom hfuel
  cases hfields with
  | @one field _ h =>
    obtain ⟨key, raw⟩ := field
    have hroom' : p.Room depth (max raw.depth 0) (raw.nodes + 0) (raw.Distinct ∧ True) :=
      ⟨hroom.depth, hroom.nodes, fun hreject => (hroom.distinct hreject).2⟩
    have hend := hp.read raw.nodes
    rw [member_complete hvalue hp h (stop_cons (by decide) (by decide))
        (fun hreject => (freshKeys_head (hroom.distinct hreject).1).1) hroom'.left (by omega),
      bind_run hend.peek, if_neg (next_ne 0x2c ',' (by decide) rfl (by simp)),
      if_pos (next_cons 0x7d '}' rest (by decide) rfl), bind_run (bump_char (c := '}') (by decide)),
      read_read]
    rfl
  | @cons field fields text tail h hs =>
    obtain ⟨key, raw⟩ := field
    rw [List.append_assoc, List.cons_append] at hp
    rw [List.length_append, List.length_cons] at hfuel
    have hroom' : p.Room depth (max raw.depth (Json.depthFields fields))
        (raw.nodes + Json.nodesFields fields)
        (raw.Distinct ∧ (FreshKeys (key :: keys) fields ∧ Json.DistinctFields fields)) := by
      refine ⟨hroom.depth, hroom.nodes, fun hreject => ?_⟩
      obtain ⟨hfresh, hraw, hdistinct⟩ := hroom.distinct hreject
      exact ⟨hraw, (freshKeys_head hfresh).2, hdistinct⟩
    have hend := hp.read raw.nodes
    have htail : (p.read (text ++ [',']) raw.nodes).At (tail ++ '}' :: rest) :=
      At.read (by simpa using hp) _
    rw [member_complete hvalue hp h (stop_cons (by decide) (by decide))
        (fun hreject => (freshKeys_head (hroom.distinct hreject).1).1) hroom'.left (by omega),
      bind_run hend.peek, if_pos (next_cons 0x2c ',' (tail ++ '}' :: rest) (by decide) rfl),
      bind_run (bump_char (c := ',') (by decide)), read_read, Nat.add_zero,
      hmembers htail hs (hroom'.right _) (by omega)]
    simp [Json.denoteFields, Json.nodesFields, insertAll, OrderedMap.insert]

theorem array_complete {fuel : ℕ} (helements : ∀ n < fuel, CompleteElements n) {depth : ℕ}
    {p : Parser} {text rest : List Char} {items : List Json}
    (hp : p.At ('[' :: (text ++ ']' :: rest))) (hitems : SpellsItems items text)
    (hroom : p.Room (depth + 1) (Json.depthItems items) (Json.nodesItems items)
      (Json.DistinctItems items)) (hfuel : 2 * text.length + 2 ≤ fuel) :
    array fuel (depth + 1) p = .ok (.array (Json.denoteItems items),
      p.read ('[' :: (text ++ [']'])) (Json.nodesItems items)) := by
  obtain ⟨fuel, rfl⟩ : ∃ n, fuel = n + 1 := ⟨fuel - 1, by omega⟩
  obtain ⟨w, c, cs, rfl, hw, hc, hclose, hitems⟩ := hitems.trim
  rw [List.append_assoc, List.cons_append] at hp
  have hopen : (p.read ['['] 0).At (w ++ c :: (cs ++ ']' :: rest)) := hp.read_one 0
  have hinner : (p.read ('[' :: w) 0).At ((c :: cs) ++ ']' :: rest) :=
    hp.read_cons 0
  have hnoWs : NoWs (c :: (cs ++ ']' :: rest)) := by
    intro d hd
    cases hd
    exact hc
  rw [List.length_append] at hfuel
  rw [array_eq, bind_run (bump_char (c := '[') (by decide)), bind_run (skipWs_over hopen hw hnoWs),
    read_read, List.singleton_append, bind_run hinner.peek,
    if_neg (next_ne 0x5d ']' (by decide) rfl (by simpa using hclose)),
    helements fuel (by omega) hinner hitems ⟨hroom.depth, hroom.nodes, hroom.distinct⟩ (by omega)]
  simp

theorem object_complete {fuel : ℕ} (hmembers : ∀ n < fuel, CompleteMembers n) {depth : ℕ}
    {p : Parser} {text rest : List Char} {fields : List (String × Json)}
    (hp : p.At ('{' :: (text ++ '}' :: rest))) (hfields : SpellsMembers fields text)
    (hroom : p.Room (depth + 1) (Json.depthFields fields) (Json.nodesFields fields)
      ((fields.map Prod.fst).Nodup ∧ Json.DistinctFields fields))
    (hfuel : 2 * text.length + 2 ≤ fuel) :
    object fuel (depth + 1) p = .ok (.object (Assoc.ofList (Json.denoteFields fields)),
      p.read ('{' :: (text ++ ['}'])) (Json.nodesFields fields)) := by
  obtain ⟨fuel, rfl⟩ : ∃ n, fuel = n + 1 := ⟨fuel - 1, by omega⟩
  obtain ⟨w, cs, rfl, hw, hfields⟩ := hfields.trim
  rw [List.append_assoc, List.cons_append] at hp
  have hopen : (p.read ['{'] 0).At (w ++ '\"' :: (cs ++ '}' :: rest)) :=
    hp.read_one 0
  have hinner : (p.read ('{' :: w) 0).At (('\"' :: cs) ++ '}' :: rest) :=
    hp.read_cons 0
  have hnoWs : NoWs ('\"' :: (cs ++ '}' :: rest)) := (stop_cons (by decide) (by decide)).1
  have hfresh : (p.read ('{' :: w) 0).Room (depth + 1) (Json.depthFields fields)
      (Json.nodesFields fields) (FreshKeys [] fields ∧ Json.DistinctFields fields) :=
    ⟨hroom.depth, hroom.nodes, fun hreject => ⟨⟨(hroom.distinct hreject).1, by simp⟩,
      (hroom.distinct hreject).2⟩⟩
  rw [List.length_append] at hfuel
  rw [object_eq, bind_run (bump_char (c := '{') (by decide)),
    bind_run (skipWs_over hopen hw hnoWs), read_read, List.singleton_append, bind_run hinner.peek,
    if_neg (next_ne 0x7d '}' (by decide) rfl (by simp)),
    hmembers fuel (by omega) hinner hfields hfresh (by omega)]
  simp [insertAll, Assoc.ofList, OrderedMap.empty]

theorem emptyArray_complete {fuel depth : ℕ} {p : Parser} {w rest : List Char}
    (hp : p.At ('[' :: (w ++ ']' :: rest))) (hw : Ws w) (hfuel : 0 < fuel) :
    array fuel depth p = .ok (.array [], p.read ('[' :: (w ++ [']'])) 0) := by
  obtain ⟨fuel, rfl⟩ : ∃ n, fuel = n + 1 := ⟨fuel - 1, by omega⟩
  have hopen : (p.read ['['] 0).At (w ++ ']' :: rest) := hp.read_one 0
  have hclose : (p.read ('[' :: w) 0).At (']' :: rest) := hp.read_cons 0
  rw [array_eq, bind_run (bump_char (c := '[') (by decide)),
    bind_run (skipWs_over hopen hw (stop_cons (by decide) (by decide)).1), read_read,
    List.singleton_append, bind_run hclose.peek, if_pos (next_cons 0x5d ']' rest (by decide) rfl),
    bind_run (bump_char (c := ']') (by decide)), read_read]
  rfl

theorem emptyObject_complete {fuel depth : ℕ} {p : Parser} {w rest : List Char}
    (hp : p.At ('{' :: (w ++ '}' :: rest))) (hw : Ws w) (hfuel : 0 < fuel) :
    object fuel depth p = .ok (.object [], p.read ('{' :: (w ++ ['}'])) 0) := by
  obtain ⟨fuel, rfl⟩ : ∃ n, fuel = n + 1 := ⟨fuel - 1, by omega⟩
  have hopen : (p.read ['{'] 0).At (w ++ '}' :: rest) := hp.read_one 0
  have hclose : (p.read ('{' :: w) 0).At ('}' :: rest) := hp.read_cons 0
  rw [object_eq, bind_run (bump_char (c := '{') (by decide)),
    bind_run (skipWs_over hopen hw (stop_cons (by decide) (by decide)).1), read_read,
    List.singleton_append, bind_run hclose.peek, if_pos (next_cons 0x7d '}' rest (by decide) rfl),
    bind_run (bump_char (c := '}') (by decide)), read_read]
  rfl

theorem literal_complete (word : String) (raw : Json) {p : Parser} {rest : List Char}
    (hp : p.At (word.toList ++ rest)) :
    (literal word >>= fun _ => pure raw) p = .ok (raw, p.read word.toList 0) := by
  rw [bind_run ((literal_accepts word).complete (a := ()) hp rfl trivial)]
  rfl

theorem number_char {c : Char} (hc : c = '-' ∨ c.isDigit = true) : c.toNat < 0x80 := by
  rcases hc with rfl | hc
  · decide
  · rw [← charOf_isDigit, charOf, Bool.and_eq_true, decide_eq_true_eq] at hc
    exact hc.1

theorem dispatch_complete {fuel : ℕ} (helements : ∀ n < fuel, CompleteElements n)
    (hmembers : ∀ n < fuel, CompleteMembers n) {depth n : ℕ} {p : Parser} {text rest : List Char}
    {raw : Json} (hp : p.At (text ++ rest)) (h : Spells raw text) (hrest : Json.Closed rest)
    (hn : raw.nodes = n + 1) (hroom : p.Room depth raw.depth n raw.Distinct)
    (hfuel : 2 * text.length ≤ fuel + 1) :
    dispatch fuel depth p = .ok (raw.denote, p.read text n) := by
  have henter : 1 ≤ raw.depth → enter depth p = .ok ((), p) := fun h =>
    enter_ok.mpr ⟨by have := hroom.depth; omega, rfl⟩
  cases h with
  | null =>
    rw [dispatch_run hp (by decide)]
    cases hn
    exact literal_complete "null" .null hp
  | true =>
    rw [dispatch_run hp (by decide)]
    cases hn
    exact literal_complete "true" (.bool true) hp
  | false =>
    rw [dispatch_run hp (by decide)]
    cases hn
    exact literal_complete "false" (.bool false) hp
  | number h =>
    cases hn
    have haccept := number_accepts.complete hp ⟨h, rfl⟩ hrest
    obtain ⟨c, cs, rfl, hc⟩ := numberToken_head h
    have hne : ∀ d : Char, (d = '-' ∨ d.isDigit = true) = False → c ≠ d := by
      rintro d hd rfl
      exact hd ▸ hc
    rw [dispatch_run hp (number_char hc), if_neg (hne _ (by decide)), if_neg (hne _ (by decide)),
      if_neg (hne _ (by decide)), if_neg (hne _ (by decide)), if_neg (hne _ (by decide)),
      if_neg (hne _ (by decide)), if_pos hc]
    exact haccept
  | string h =>
    cases hn
    have hstring := string_complete hp h
    obtain ⟨body, rfl, hbody⟩ := h
    rw [dispatch_run hp (by decide)]
    exact bind_run hstring
  | @emptyArray w hw =>
    cases hn
    rw [List.cons_append, List.append_assoc] at hp
    rw [dispatch_run hp (by decide)]
    simp only [List.length_cons] at hfuel
    exact (bind_run (henter le_rfl)).trans (emptyArray_complete hp hw (by omega))
  | @array items text hitems =>
    cases hn
    rw [List.cons_append, List.append_assoc] at hp
    rw [dispatch_run hp (by decide)]
    simp only [List.length_cons, List.length_append, List.length_nil] at hfuel
    have hroom' : p.Room (depth + 1) (Json.depthItems items) (Json.nodesItems items)
        (Json.DistinctItems items) := by
      refine ⟨?_, hroom.nodes, hroom.distinct⟩
      have := hroom.depth
      simp only [Json.depth] at this
      omega
    exact (bind_run (henter (by simp [Json.depth]))).trans
      (array_complete helements hp hitems hroom' (by omega))
  | @emptyObject w hw =>
    cases hn
    rw [List.cons_append, List.append_assoc] at hp
    rw [dispatch_run hp (by decide)]
    simp only [List.length_cons] at hfuel
    exact (bind_run (henter le_rfl)).trans (emptyObject_complete hp hw (by omega))
  | @object fields text hfields =>
    cases hn
    rw [List.cons_append, List.append_assoc] at hp
    rw [dispatch_run hp (by decide)]
    simp only [List.length_cons, List.length_append, List.length_nil] at hfuel
    have hroom' : p.Room (depth + 1) (Json.depthFields fields) (Json.nodesFields fields)
        ((fields.map Prod.fst).Nodup ∧ Json.DistinctFields fields) := by
      refine ⟨?_, hroom.nodes, hroom.distinct⟩
      have := hroom.depth
      simp only [Json.depth] at this
      omega
    exact (bind_run (henter (by simp [Json.depth]))).trans
      (object_complete hmembers hp hfields hroom' (by omega))

theorem nodes_pos (raw : Json) : ∃ n, raw.nodes = n + 1 := by
  cases raw <;> exact ⟨_, rfl⟩

theorem completeValue_succ {fuel : ℕ} (helements : ∀ n < fuel, CompleteElements n)
    (hmembers : ∀ n < fuel, CompleteMembers n) : CompleteValue (fuel + 1) := by
  intro depth p a text rest raw hp ha hspells hrest hroom hfuel
  obtain ⟨n, hn⟩ := nodes_pos raw
  obtain ⟨c, cs, htext, hc, -⟩ := spells_head hspells
  have hnoWs : NoWs (text ++ rest) := by
    intro d hd
    rw [htext] at hd
    cases hd
    exact hc
  have hnodes := hroom.nodes
  have htick : (modify tick : Parse Unit) (p.read a 0) = .ok ((), p.read a 1) := rfl
  rw [value_eq, bind_run (skipWs_over hp ha hnoWs), bind_run htick,
    bind_run (x := get) (a := p.read a 1) (q := p.read a 1) rfl, read_nodes, read_limits,
    if_neg (by omega), dispatch_complete helements hmembers (hp.read 1) hspells hrest hn
      ⟨hroom.depth, by simp only [read_nodes, read_limits]; omega, hroom.distinct⟩ hfuel,
    read_read, hn, Nat.add_comm 1]

theorem complete (fuel : ℕ) : CompleteValue fuel ∧ CompleteElements fuel ∧ CompleteMembers fuel := by
  induction fuel using Nat.strong_induction_on with
  | _ fuel ih =>
    cases fuel with
    | zero =>
      refine ⟨fun {_ _ _ text _ _} _ _ hspells _ _ hfuel => ?_, fun {_ _ _ _ _ _} _ _ _ hfuel => ?_,
        fun {_ _ _ _ _ _ _} _ _ _ hfuel => ?_⟩
      · obtain ⟨c, cs, rfl, -, -⟩ := spells_head hspells
        simp at hfuel
      · omega
      · omega
    | succ fuel =>
      obtain ⟨hvalue, helements, hmembers⟩ := ih fuel (by omega)
      exact ⟨completeValue_succ (fun n hn => (ih n (by omega)).2.1)
          fun n hn => (ih n (by omega)).2.2,
        completeElements_succ hvalue helements, completeMembers_succ hvalue hmembers⟩

end Parser

/-! ### Whole texts -/

namespace Parser

/-- `parse` after the length check: one value, and nothing after it. -/
def document (text : List Char) : Parse Json := do
  let value ← value (3 * (utf8 text).length + 3) 0
  skipWs
  let p ← get
  if p.cursor ≠ (utf8 text).length then error "trailing characters after JSON value"
  else return value

end Parser

theorem parseChars_eq (text : List Char) (limits : Limits) :
    parseChars text limits = if (utf8 text).length > limits.maxBytes then
      .error (.error ("JSON payload exceeds " ++ toString limits.maxBytes ++ " bytes"))
    else (Parser.document text ⟨text, 0, 0, limits⟩).map Prod.fst := by
  have hdocument : (do
      let value ← Parser.value (3 * (utf8 text).length + 3) 0
      Parser.skipWs
      let p ← get
      if p.cursor ≠ (utf8 text).length then Parser.error "trailing characters after JSON value"
      return value : Parse Json) = Parser.document text := by
    refine bind_congr fun j => bind_congr fun _ => bind_congr fun p => ?_
    split_ifs
    · exact Parser.error_bind _ _
    · rfl
  rw [parseChars]
  by_cases hsize : (utf8 text).length > limits.maxBytes
  · rw [if_pos hsize, if_pos hsize]
    rfl
  · rw [if_neg hsize, if_neg hsize]
    change StateT.run' _ _ = _
    rw [hdocument]
    rfl

namespace Parser

theorem parseChars_eq_ok {text : List Char} {limits : Limits} {j : Json} :
    parseChars text limits = .ok j ↔ (utf8 text).length ≤ limits.maxBytes ∧
      ∃ q, document text ⟨text, 0, 0, limits⟩ = .ok (j, q) := by
  rw [parseChars_eq]
  by_cases hsize : (utf8 text).length > limits.maxBytes
  · rw [if_pos hsize]
    exact ⟨nofun, fun h => absurd h.1 (by omega)⟩
  · rw [if_neg hsize]
    cases document text ⟨text, 0, 0, limits⟩ with
    | error e => simp [Except.map]
    | ok r => simp [Except.map, Prod.ext_iff, not_lt.mp hsize]

theorem stop_nil : Stop [] := by simp [Stop, NoWs, Json.Closed]

theorem read_all (text : List Char) (limits : Limits) (n : ℕ) :
    ((⟨text, 0, 0, limits⟩ : Parser).read text n).cursor = (utf8 text).length := by
  simp [read]

theorem document_ok {text : List Char} {limits : Limits} {j : Json} :
    (∃ q, document text ⟨text, 0, 0, limits⟩ = .ok (j, q)) ↔
      ∃ raw, SpellsPadded raw text ∧ raw.Fits limits ∧ j = raw.denote := by
  have hstart : (⟨text, 0, 0, limits⟩ : Parser).At text := ⟨[], rfl, rfl⟩
  constructor
  · rintro ⟨q, h⟩
    obtain ⟨item, r, hr, h⟩ := bind_ok.mp h
    obtain ⟨raw, front, rest, rfl, hspells, rfl, hroom, hskip⟩ :=
      value_padded (sound _).1 hstart (Nat.zero_le _) hr
    rw [bind_run hskip, bind_run (x := get) rfl] at h
    split_ifs at h with hend
    · exact absurd h error_ne_ok
    · cases h
      have hrest : rest = [] := by
        cases rest with
        | nil => rfl
        | cons c rest =>
          have hpos := List.length_pos_of_ne_nil (encodeChar_ne_nil c)
          simp only [read, utf8_append, utf8_cons, List.length_append] at hend
          omega
      rw [hrest, List.append_nil]
      have hfits : raw.Fits limits :=
        ⟨by simpa using hroom.depth, by simpa using hroom.nodes, hroom.distinct⟩
      exact ⟨raw, hspells, hfits, rfl⟩
  · rintro ⟨raw, hspells, hfits, rfl⟩
    have hat : (⟨text, 0, 0, limits⟩ : Parser).At (text ++ []) := by simpa using hstart
    have hlength : text.length ≤ (utf8 text).length := length_le_utf8 text
    have hroom : Room ⟨text, 0, 0, limits⟩ 0 raw.depth raw.nodes raw.Distinct :=
      ⟨by simpa using hfits.depth, by simpa using hfits.nodes, hfits.distinct⟩
    obtain ⟨q, hq, hskip⟩ := padded_complete (complete (3 * (utf8 text).length + 3)).1 hat hspells
      stop_nil hroom (by omega)
    refine ⟨(⟨text, 0, 0, limits⟩ : Parser).read text raw.nodes, ?_⟩
    rw [document, bind_run hq, bind_run hskip,
      bind_run (x := get) (q := (⟨text, 0, 0, limits⟩ : Parser).read text raw.nodes) rfl, read_all,
      if_neg (by simp)]
    rfl

end Parser

theorem parse_eq_ok {text : String} {limits : Limits} {j : Json} :
    parse text limits = .ok j ↔
      text.utf8ByteSize ≤ limits.maxBytes ∧
        ∃ raw, SpellsPadded raw text.toList ∧ raw.Fits limits ∧ j = raw.denote := by
  rw [parse, Parser.parseChars_eq_ok, Parser.document_ok, length_utf8]

/-- The parser accepts the texts that spell one value with whitespace around it, and that stay
within the limits; it returns the value the text denotes. -/
theorem parse_iff (text : String) (limits : Limits) (j : Json) :
    parse text limits = .ok j ↔
      text.utf8ByteSize ≤ limits.maxBytes ∧
        ∃ raw, SpellsPadded raw text.toList ∧ raw.Fits limits ∧ j = raw.denote := parse_eq_ok

end MirrorRust
