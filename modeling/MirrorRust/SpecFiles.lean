import MirrorRust.Value
import MirrorRust.Foundation.Worklist
import MirrorRust.Foundation.Utf8

/-! The closure of a root module under `EXTENDS` and `INSTANCE`, read from files. -/
namespace MirrorRust

/-! ### Imports of a module -/

def BUILTINS : List String :=
  ["Naturals", "Integers", "Reals", "Sequences", "FiniteSets", "TLC", "Bags", "Apalache"]

def isWordStart (b : UInt8) : Bool :=
  (0x41 ≤ b && b ≤ 0x5a) || (0x61 ≤ b && b ≤ 0x7a) || b == 0x5f

def isWordByte (b : UInt8) : Bool := isWordStart b || (0x30 ≤ b && b ≤ 0x39)

/-- What the scanner is inside of. The letters of a word are in reverse; after the first byte of
a pair the second one is skipped. -/
inductive Scan
  | code
  | word (letters : List UInt8)
  | block (depth : ℕ)
  | line
  | text
  | skip (next : Scan)

namespace Scan

def flush : Scan → List String
  | .word letters => [String.ofList (letters.reverse.map fun b => Char.ofNat b.toNat)]
  | _ => []

def enter (b : UInt8) (next : Option UInt8) : Scan :=
  if b = 0x5c ∧ next = some 0x2a then .skip .line
  else if b = 0x28 ∧ next = some 0x2a then .skip (.block 1)
  else if b = 0x22 then .text
  else if isWordStart b then .word [b]
  else .code

/-- One byte, with the byte after it: the tokens that end, and the next mode. -/
def advance (mode : Scan) (b : UInt8) (next : Option UInt8) : List String × Scan :=
  let code := (mode.flush ++ if b = 0x2c then [","] else [], enter b next)
  match mode with
  | .skip mode => ([], mode)
  | .block depth =>
    if b = 0x28 ∧ next = some 0x2a then ([], .skip (.block (depth + 1)))
    else if b = 0x2a ∧ next = some 0x29 then
      ([], .skip (if depth = 1 then .code else .block (depth - 1)))
    else ([], .block depth)
  | .line => ([], if b = 0x0a then .code else .line)
  | .text =>
    if b = 0x5c ∧ next.isSome then ([], .skip .text)
    else ([], if b = 0x22 then .code else .text)
  | .word letters => if isWordByte b then ([], .word (b :: letters)) else code
  | .code => code

def tokens (mode : Scan) : List UInt8 → List String
  | [] => mode.flush
  | b :: bytes =>
    let (ended, mode) := mode.advance b bytes.head?
    ended ++ tokens mode bytes

end Scan

/-- Identifiers and commas outside strings and comments. -/
def dependencyTokens (source : String) : List String := Scan.tokens .code (utf8 source.toList)

/-- The names that follow `EXTENDS` and `INSTANCE`. The flag says that a list of names after
`EXTENDS` may go on. -/
def collectNames : Bool → List String → List String
  | extending, token :: name :: rest =>
    if extending ∧ token = "," ∧ name ≠ "," then name :: collectNames true rest
    else if token = "EXTENDS" ∧ name ≠ "," then name :: collectNames true rest
    else if token = "INSTANCE" ∧ name ≠ "," then name :: collectNames false rest
    else collectNames false (name :: rest)
  | _, _ => []

def importNames (source : String) : List String :=
  (collectNames false (dependencyTokens source)).filter fun name => !BUILTINS.contains name

example : importNames "EXTENDS A,\n B, Integers \"EXTENDS C\" (* EXTENDS (* D *) E *) \\* INSTANCE F\n INSTANCE G" =
    ["A", "B", "G"] := by decide +kernel

/-! ### Files -/

/-- A finite map from canonical paths to sources, with what the standard library answers about
other paths. -/
structure FileSystem (Path : Type) where
  files : List (Path × String)
  present : Path → Bool
  canonicalize : Path → Except String Path
  readError : Path → String
  join : Path → String → Path
  parent : Path → Option Path
  here : Path
  display : Path → String

namespace FileSystem
variable {Path : Type} [DecidableEq Path] (fs : FileSystem Path)

def read (path : Path) : Option String := fs.files.lookup path

def sourceError (message : String) : Error := .specSource message

def readToString (path : Path) : Except Error String :=
  match fs.read path with
  | some source => .ok source
  | none => .error (sourceError ("cannot read " ++ fs.display path ++ ": " ++ fs.readError path))

def directory (path : Path) : Path := (fs.parent path).getD fs.here

def candidate (dir : Path) (name : String) : Path := fs.join dir (name ++ ".tla")

/-- The distinct canonical files that a module name stands for, in the order of the directories. -/
def candidates (name : String) : List Path → List Path → Except Error (List Path)
  | [], found => .ok found
  | dir :: dirs, found =>
    let candidate := fs.candidate dir name
    if !fs.present candidate then candidates name dirs found
    else
      match fs.canonicalize candidate with
      | .error e =>
        .error (sourceError ("cannot resolve " ++ fs.display candidate ++ ": " ++ e))
      | .ok path => candidates name dirs (if path ∈ found then found else found ++ [path])

def resolveModule (importDir : Path) (name : String) (searchDirs : List Path) :
    Except Error Path :=
  match fs.candidates name (importDir :: searchDirs) [] with
  | .error e => .error e
  | .ok [] =>
    .error (sourceError
      ("module " ++ debugStr name ++ " imported from " ++ fs.display importDir ++ " was not found"))
  | .ok [only] => .ok only
  | .ok paths =>
    .error (sourceError
      ("module " ++ debugStr name ++ " is ambiguous: " ++
        ", ".intercalate (paths.map fs.display)))

def imports (path : Path) (source : String) : List (Path × String) :=
  (importNames source).map fun name => (fs.directory path, name)

/-- The loop of `spec_from_files`. -/
def specLoop (searchDirs : List Path) :
    ℕ → List (Path × String) → List Path → List String → Option (Except Error (List String))
  | 0, _, _, _ => none
  | _ + 1, [], _, sources => some (.ok sources)
  | fuel + 1, (importDir, name) :: queue, visited, sources =>
    match fs.resolveModule importDir name searchDirs with
    | .error e => some (.error e)
    | .ok path =>
      if path ∈ visited then specLoop searchDirs fuel queue visited sources
      else
        match fs.readToString path with
        | .error e => some (.error e)
        | .ok source =>
          specLoop searchDirs fuel (queue ++ fs.imports path source) (path :: visited)
            (sources ++ [source])

/-- The directories to search: those of `TLA_LIBRARY_PATH` when none are given. -/
def searchPath (searchDirs : List Path) (libraryPath : Option (List Path)) : List Path :=
  if searchDirs = [] then libraryPath.getD [] else searchDirs

/-- The sources of the closure of `root`; no answer means that the fuel did not suffice. -/
def specFromFiles (fuel : ℕ) (root : Path) (searchDirs : List Path)
    (libraryPath : Option (List Path)) : Option (Except Error (List String)) :=
  let searchDirs := searchPath searchDirs libraryPath
  match fs.canonicalize root with
  | .error e => some (.error (sourceError ("cannot resolve root " ++ fs.display root ++ ": " ++ e)))
  | .ok root =>
    match fs.readToString root with
    | .error e => some (.error e)
    | .ok source => fs.specLoop searchDirs fuel (fs.imports root source) [root] [source]

/-! ### What an import stands for -/

def Resolves (searchDirs : List Path) (importDir : Path) (name : String) (path : Path) : Prop :=
  (∃ dir ∈ importDir :: searchDirs, fs.present (fs.candidate dir name) = true) ∧
    ∀ dir ∈ importDir :: searchDirs, fs.present (fs.candidate dir name) = true →
      fs.canonicalize (fs.candidate dir name) = .ok path

def Imports (searchDirs : List Path) (a b : Path) : Prop :=
  ∃ source, fs.read a = some source ∧
    ∃ name ∈ importNames source, fs.Resolves searchDirs (fs.directory a) name b

/-- Every file that is reached from the root can be read, and each of its imports resolves. -/
def Closed (searchDirs : List Path) (root : Path) : Prop :=
  ∀ a, Relation.ReflTransGen (fs.Imports searchDirs) root a →
    ∃ source, fs.read a = some source ∧
      ∀ name ∈ importNames source, ∃ b, fs.Resolves searchDirs (fs.directory a) name b

variable {fs}

theorem candidates_ok {name : String} {dirs found paths : List Path}
    (h : fs.candidates name dirs found = .ok paths) :
    (∀ p, p ∈ paths ↔ p ∈ found ∨ ∃ dir ∈ dirs, fs.present (fs.candidate dir name) = true ∧
      fs.canonicalize (fs.candidate dir name) = .ok p) ∧
      (∀ dir ∈ dirs, fs.present (fs.candidate dir name) = true →
        ∃ p, fs.canonicalize (fs.candidate dir name) = .ok p) ∧
      (found.Nodup → paths.Nodup) := by
  induction dirs generalizing found with
  | nil =>
    cases h
    simp
  | cons dir dirs ih =>
    rw [candidates] at h
    by_cases hpresent : fs.present (fs.candidate dir name) = true
    · rw [if_neg (by simp [hpresent])] at h
      cases hpath : fs.canonicalize (fs.candidate dir name) with
      | error e => simp [hpath] at h
      | ok path =>
        simp only [hpath] at h
        obtain ⟨hmem, hall, hnodup⟩ := ih h
        refine ⟨fun p => ?_, ?_, fun hfound => hnodup ?_⟩
        · rw [hmem]
          have hif : p ∈ (if path ∈ found then found else found ++ [path]) ↔
              p ∈ found ∨ path = p := by
            split_ifs with hin
            · constructor
              · exact Or.inl
              · rintro (hp | rfl)
                · exact hp
                · exact hin
            · simp [eq_comm]
          simp only [hif, List.mem_cons, exists_eq_or_imp, hpresent, hpath, true_and,
            Except.ok.injEq, or_assoc]
        · intro d hd
          rcases List.mem_cons.mp hd with rfl | hd
          · exact fun _ => ⟨path, hpath⟩
          · exact hall d hd
        · split_ifs with hin
          · exact hfound
          · exact List.nodup_append.mpr ⟨hfound, List.nodup_singleton path, fun p hp q hq hpq =>
              hin (by rwa [← List.mem_singleton.mp hq, ← hpq])⟩
    · rw [if_pos (by simpa using hpresent)] at h
      obtain ⟨hmem, hall, hnodup⟩ := ih h
      refine ⟨fun p => ?_, ?_, hnodup⟩
      · simp [hmem, hpresent]
      · intro d hd
        rcases List.mem_cons.mp hd with rfl | hd
        · exact fun hd => absurd hd hpresent
        · exact hall d hd

theorem candidates_exists {name : String} {dirs found : List Path}
    (h : ∀ dir ∈ dirs, fs.present (fs.candidate dir name) = true →
      ∃ p, fs.canonicalize (fs.candidate dir name) = .ok p) :
    ∃ paths, fs.candidates name dirs found = .ok paths := by
  induction dirs generalizing found with
  | nil => exact ⟨found, rfl⟩
  | cons dir dirs ih =>
    have hdirs : ∀ d ∈ dirs, fs.present (fs.candidate d name) = true →
        ∃ p, fs.canonicalize (fs.candidate d name) = .ok p :=
      fun d hd => h d (List.mem_cons_of_mem _ hd)
    rw [candidates]
    by_cases hpresent : fs.present (fs.candidate dir name) = true
    · obtain ⟨path, hpath⟩ := h dir (by simp) hpresent
      simp only [hpresent, hpath, Bool.not_true, Bool.false_eq_true, if_false]
      exact ih hdirs
    · rw [if_pos (by simpa using hpresent)]
      exact ih hdirs

theorem resolveModule_eq_ok {searchDirs : List Path} {importDir path : Path} {name : String} :
    fs.resolveModule importDir name searchDirs = .ok path ↔
      fs.Resolves searchDirs importDir name path := by
  constructor
  · intro h
    unfold resolveModule at h
    cases hc : fs.candidates name (importDir :: searchDirs) [] with
    | error e => simp [hc] at h
    | ok paths =>
      obtain ⟨hmem, hall, -⟩ := candidates_ok hc
      rw [hc] at h
      have hpaths : paths = [path] := by
        split at h <;> simp_all
      have honly : ∀ p, p = path ↔ ∃ dir ∈ importDir :: searchDirs,
          fs.present (fs.candidate dir name) = true ∧
            fs.canonicalize (fs.candidate dir name) = .ok p := by
        intro p
        have hp := hmem p
        simpa [hpaths] using hp
      obtain ⟨dir, hdir, hpresent, -⟩ := (honly path).mp rfl
      refine ⟨⟨dir, hdir, hpresent⟩, fun d hd hp => ?_⟩
      obtain ⟨p, hcanon⟩ := hall d hd hp
      rw [hcanon, (honly p).mpr ⟨d, hd, hp, hcanon⟩]
  · rintro ⟨⟨dir, hdir, hpresent⟩, hall⟩
    have hexists : ∃ paths, fs.candidates name (importDir :: searchDirs) [] = .ok paths :=
      candidates_exists fun d hd hp => ⟨path, hall d hd hp⟩
    obtain ⟨paths, hc⟩ := hexists
    obtain ⟨hmem, -, hnodup⟩ := candidates_ok hc
    have hin : path ∈ paths := (hmem path).mpr (Or.inr ⟨dir, hdir, hpresent, hall dir hdir hpresent⟩)
    have honly : ∀ p ∈ paths, p = path := by
      intro p hp
      rcases (hmem p).mp hp with hp | ⟨d, hd, hpd, hcanon⟩
      · simp at hp
      · rw [hall d hd hpd] at hcanon
        exact (Except.ok.inj hcanon).symm
    have hpaths : paths = [path] := by
      have hone := List.eq_replicate_iff.mpr ⟨rfl, honly⟩
      have hlen : paths.length ≤ 1 := by
        rw [hone] at hnodup
        have := List.nodup_replicate.mp (hnodup List.nodup_nil)
        simpa using this
      rw [hone, show paths.length = 1 by have := List.length_pos_of_mem hin; omega]
      rfl
    rw [resolveModule, hc, hpaths]

/-! ### The closure as a breadth-first search -/

/-- The search behind the loop, over the files themselves. -/
def search (fs : FileSystem Path) (searchDirs : List Path) : Search (Path × String) Path Error where
  resolve task := fs.resolveModule task.1 task.2 searchDirs
  expand path := (fs.readToString path).map (fs.imports path)

def text (fs : FileSystem Path) (path : Path) : String := (fs.read path).getD ""

theorem readToString_eq_ok {path : Path} {source : String} :
    fs.readToString path = .ok source ↔ fs.read path = some source := by
  unfold readToString
  cases fs.read path <;> simp

theorem expand_eq_ok {searchDirs : List Path} {path : Path} {tasks : List (Path × String)} :
    (fs.search searchDirs).expand path = .ok tasks ↔
      ∃ source, fs.read path = some source ∧ fs.imports path source = tasks := by
  simp only [search, ← readToString_eq_ok]
  cases fs.readToString path <;> simp [Except.map]

theorem edge_iff {searchDirs : List Path} {a b : Path} :
    (fs.search searchDirs).Edge a b ↔ fs.Imports searchDirs a b := by
  rw [Search.Edge, Search.mem_succ, Imports]
  constructor
  · rintro ⟨task, htask, hb⟩
    cases hsource : fs.read a with
    | none =>
      have : (fs.search searchDirs).tasks a = [] := by
        simp [Search.tasks, search, readToString, hsource, Except.map, Except.toOption]
      simp [this] at htask
    | some source =>
      rw [Search.tasks_ok (expand_eq_ok.mpr ⟨source, hsource, rfl⟩)] at htask
      obtain ⟨name, hname, rfl⟩ := List.mem_map.mp htask
      exact ⟨source, rfl, name, hname, resolveModule_eq_ok.mp hb⟩
  · rintro ⟨source, hsource, name, hname, hb⟩
    refine ⟨(fs.directory a, name), ?_, resolveModule_eq_ok.mpr hb⟩
    rw [Search.tasks_ok (expand_eq_ok.mpr ⟨source, hsource, rfl⟩)]
    exact List.mem_map_of_mem hname

theorem edge_eq (searchDirs : List Path) :
    (fs.search searchDirs).Edge = fs.Imports searchDirs := by
  funext a b
  exact propext edge_iff

theorem complete_iff {searchDirs : List Path} {root : Path} :
    (fs.search searchDirs).Complete root ↔ fs.Closed searchDirs root := by
  simp only [Search.Complete, Search.Reaches, edge_eq, Closed, expand_eq_ok]
  refine forall_congr' fun a => imp_congr_right fun _ => ?_
  constructor
  · rintro ⟨-, ⟨source, hsource, rfl⟩, hall⟩
    refine ⟨source, hsource, fun name hname => ?_⟩
    obtain ⟨b, hb⟩ := hall (fs.directory a, name) (List.mem_map_of_mem hname)
    exact ⟨b, resolveModule_eq_ok.mp hb⟩
  · rintro ⟨source, hsource, hall⟩
    refine ⟨_, ⟨source, hsource, rfl⟩, fun task htask => ?_⟩
    obtain ⟨name, hname, rfl⟩ := List.mem_map.mp htask
    obtain ⟨b, hb⟩ := hall name hname
    exact ⟨b, resolveModule_eq_ok.mpr hb⟩

/-- The loop is the search; it keeps the texts of the files that the search has found. -/
theorem specLoop_eq {searchDirs : List Path} (fuel : ℕ) (queue : List (Path × String))
    (visited order : List Path) (h : ∀ p, p ∈ visited ↔ p ∈ order) :
    fs.specLoop searchDirs fuel queue visited (order.map fs.text) =
      ((fs.search searchDirs).loop fuel queue order).map (Except.map (List.map fs.text)) := by
  induction fuel generalizing queue visited order with
  | zero => rfl
  | succ fuel ih =>
    match queue with
    | [] => rfl
    | (importDir, name) :: queue =>
      rw [specLoop, Search.loop]
      simp only [search]
      cases fs.resolveModule importDir name searchDirs with
      | error e => rfl
      | ok path =>
        simp only
        by_cases hmem : path ∈ visited
        · rw [if_pos hmem, if_pos ((h path).mp hmem)]
          exact ih queue visited order h
        · rw [if_neg hmem, if_neg fun hp => hmem ((h path).mpr hp)]
          cases hread : fs.readToString path with
          | error e => rfl
          | ok source =>
            have htext : order.map fs.text ++ [source] = (order ++ [path]).map fs.text := by
              simp [text, readToString_eq_ok.mp hread]
            simp only [Except.map, htext]
            exact ih _ _ _ fun p => by simp [h, or_comm]

def imported (fs : FileSystem Path) (searchDirs : List Path) (path : Path) : List Path :=
  (fs.search searchDirs).succ path

theorem mem_of_read {path : Path} {source : String} (h : fs.read path = some source) :
    (path, source) ∈ fs.files := by
  obtain ⟨before, after, hfiles, -⟩ := List.lookup_eq_some_iff.mp h
  rw [hfiles]
  simp

theorem mem_files {path : Path} {source : String} (h : fs.read path = some source) :
    path ∈ (fs.files.map Prod.fst).toFinset := by
  simpa using ⟨source, mem_of_read h⟩

/-- The closure of a root, in breadth-first order of first discovery: the files within `n` imports
of the root come before all others. -/
structure ListsClosure (fs : FileSystem Path) (searchDirs : List Path) (root : Path)
    (order : List Path) : Prop where
  head : order.head? = some root
  nodup : order.Nodup
  mem_iff : ∀ p, p ∈ order ↔ Relation.ReflTransGen (fs.Imports searchDirs) root p
  layer : ∀ n, ∃ found, found <+: order ∧ ∀ p, p ∈ found ↔ Within (fs.Imports searchDirs) root n p
  discovery : order = (root :: order.flatMap (fs.imported searchDirs)).eraseDups

theorem listsClosure_of_breadthFirst {dirs : List Path} {root : Path} {order : List Path}
    (h : (fs.search dirs).BreadthFirst root order) : fs.ListsClosure dirs root order where
  head := by
    rw [h.discovery, List.eraseDups_cons]
    rfl
  nodup := h.nodup
  mem_iff p := by rw [h.mem_iff, Search.Reaches, edge_eq]
  layer n := by
    have hlayer := h.layer n
    rwa [edge_eq] at hlayer
  discovery := h.discovery

theorem specLoop_root {dirs : List Path} {root : Path} {source : String}
    (hsource : fs.read root = some source) (fuel : ℕ) :
    fs.specLoop dirs fuel (fs.imports root source) [root] [source] =
      ((fs.search dirs).loop fuel (fs.imports root source) [root]).map
        (Except.map (List.map fs.text)) := by
  have heq := @specLoop_eq _ _ fs dirs fuel (fs.imports root source) [root] [root] fun p => Iff.rfl
  simpa [text, hsource] using heq

theorem search_verdict {dirs : List Path} {root : Path} {source : String}
    (hsource : fs.read root = some source) {fuel : ℕ} {found : Except Error (List Path)}
    (hfound : (fs.search dirs).loop fuel (fs.imports root source) [root] = some found) :
    (fs.search dirs).Verdict root found :=
  (Search.Searching.start (expand_eq_ok.mpr ⟨source, hsource, rfl⟩)).result hfound

theorem listsClosure_of_verdict {dirs : List Path} {root : Path} {order : List Path}
    (h : (fs.search dirs).Verdict root (.ok order)) :
    fs.Closed dirs root ∧ (order.map fs.text).map some = order.map fs.read ∧
      fs.ListsClosure dirs root order := by
  obtain ⟨hbfs, hcomplete⟩ := h
  refine ⟨complete_iff.mp hcomplete, ?_, listsClosure_of_breadthFirst hbfs⟩
  rw [List.map_map]
  refine List.map_congr_left fun p hp => ?_
  obtain ⟨ts, hts, -⟩ := hcomplete p ((hbfs.mem_iff p).mp hp)
  obtain ⟨s, hs, -⟩ := expand_eq_ok.mp hts
  simp [text, hs]

/-- From a root that can be read, the loop ends; it succeeds exactly when the closure is there. -/
theorem specLoop_closure {dirs : List Path} {root : Path} {source : String}
    (hsource : fs.read root = some source) :
    ∃ bound result, (∀ fuel, bound ≤ fuel →
        fs.specLoop dirs fuel (fs.imports root source) [root] [source] = some result) ∧
      ((∃ sources, result = .ok sources) ↔ fs.Closed dirs root) ∧
      ∀ sources, result = .ok sources → ∃ order, sources.map some = order.map fs.read ∧
        fs.ListsClosure dirs root order := by
  have hnodes : ∀ a ts, (fs.search dirs).expand a = .ok ts →
      a ∈ (fs.files.map Prod.fst).toFinset := by
    intro a ts hts
    obtain ⟨s, hs, -⟩ := expand_eq_ok.mp hts
    exact mem_files hs
  obtain ⟨bound, found, hfound⟩ : ∃ bound found,
      (fs.search dirs).loop bound (fs.imports root source) [root] = some found :=
    ⟨_, Option.isSome_iff_exists.mp (Search.loop_terminates hnodes (Nat.lt_succ_self _))⟩
  have hverdict := search_verdict hsource hfound
  refine ⟨bound, found.map (List.map fs.text), fun fuel hfuel => ?_, ?_, ?_⟩
  · rw [specLoop_root hsource, Search.loop_mono hfuel hfound, Option.map_some]
  · cases found with
    | error e =>
      refine iff_of_false (by simp [Except.map]) fun hclosed => ?_
      exact hverdict (complete_iff.mpr hclosed)
    | ok order => exact iff_of_true ⟨_, rfl⟩ (listsClosure_of_verdict hverdict).1
  · intro sources hsources
    cases found with
    | error e => cases hsources
    | ok order =>
      cases hsources
      exact ⟨order, (listsClosure_of_verdict hverdict).2⟩

theorem specFromFiles_ok {fuel : ℕ} {root : Path} {searchDirs : List Path}
    {libraryPath : Option (List Path)} {sources : List String}
    (h : fs.specFromFiles fuel root searchDirs libraryPath = some (.ok sources)) :
    ∃ path order, fs.canonicalize root = .ok path ∧
      fs.Closed (searchPath searchDirs libraryPath) path ∧
      sources.map some = order.map fs.read ∧
      fs.ListsClosure (searchPath searchDirs libraryPath) path order := by
  simp only [specFromFiles] at h
  cases hcanon : fs.canonicalize root with
  | error e => simp [hcanon] at h
  | ok path =>
    cases hread : fs.readToString path with
    | error e => simp [hcanon, hread] at h
    | ok source =>
      simp only [hcanon, hread] at h
      have hsource : fs.read path = some source := readToString_eq_ok.mp hread
      rw [specLoop_root hsource, Option.map_eq_some_iff] at h
      obtain ⟨found, hfound, hsources⟩ := h
      have hverdict := search_verdict hsource hfound
      cases found with
      | error e => cases hsources
      | ok order =>
        cases hsources
        exact ⟨path, order, rfl, listsClosure_of_verdict hverdict⟩

/-- The reading of a closure ends. It succeeds exactly when the root and all modules that it
needs can be found and read, and gives each of them once, in breadth-first order. -/
theorem specFromFiles_closure (fs : FileSystem Path) (root : Path) (searchDirs : List Path)
    (libraryPath : Option (List Path)) :
    ∃ bound result, (∀ fuel, bound ≤ fuel →
        fs.specFromFiles fuel root searchDirs libraryPath = some result) ∧
      ((∃ sources, result = .ok sources) ↔ ∃ path, fs.canonicalize root = .ok path ∧
        fs.Closed (searchPath searchDirs libraryPath) path) ∧
      ∀ sources, result = .ok sources → ∃ path order, fs.canonicalize root = .ok path ∧
        sources.map some = order.map fs.read ∧
        fs.ListsClosure (searchPath searchDirs libraryPath) path order := by
  simp only [specFromFiles]
  cases hcanon : fs.canonicalize root with
  | error e =>
    refine ⟨0, _, fun fuel _ => rfl, by simp, ?_⟩
    intro sources h
    cases h
  | ok path =>
    cases hread : fs.readToString path with
    | error e =>
      simp only [hread]
      refine ⟨0, _, fun fuel _ => rfl, ?_, ?_⟩
      · refine iff_of_false (by simp) ?_
        rintro ⟨p, hp, hclosed⟩
        obtain ⟨source, hsource, -⟩ := hclosed p .refl
        rw [Except.ok.inj hp, readToString_eq_ok.mpr hsource] at hread
        cases hread
      · intro sources h
        cases h
    | ok source =>
      simp only [hread]
      have hsource : fs.read path = some source := readToString_eq_ok.mp hread
      obtain ⟨bound, result, hrun, hok, hlist⟩ :=
        @specLoop_closure _ _ fs (searchPath searchDirs libraryPath) path source hsource
      refine ⟨bound, result, hrun, hok.trans ?_, fun sources hsources => ?_⟩
      · simp
      · obtain ⟨order, horder⟩ := hlist sources hsources
        exact ⟨path, order, rfl, horder⟩

end FileSystem
end MirrorRust
