import MirrorRust.SpecFiles

/-! The file names of a closure, over trees of directories and files without links. -/
namespace MirrorRust

/-! ### Files that have one path -/

namespace FileSystem
variable {Path : Type} [DecidableEq Path] {fs : FileSystem Path}

/-- Each file has one canonical path: the directory that it is in, and its name there. `location`
says which directory a path leads to. -/
structure Linkless (fs : FileSystem Path) (location : Path → Option Path)
    (fileName : Path → Option String) : Prop where
  present_iff : ∀ path, fs.present path = true ↔ ∃ p, fs.canonicalize path = .ok p
  canonical : ∀ path p, fs.canonicalize path = .ok p → fs.canonicalize p = .ok p
  candidate : ∀ dir name p, fs.canonicalize (fs.candidate dir name) = .ok p ↔
    location dir = some (fs.directory p) ∧ fileName p = some (name ++ ".tla") ∧
      fs.canonicalize p = .ok p
  directory : ∀ p, fs.canonicalize p = .ok p → fs.read p ≠ none →
    location (fs.directory p) = some (fs.directory p)
  named : ∀ p q, fs.canonicalize p = .ok p → fs.canonicalize q = .ok q → fileName p ≠ none →
    fs.directory p = fs.directory q → fileName p = fileName q → p = q

def Searched (location : Path → Option Path) (searchDirs : List Path) (dir : Path) : Prop :=
  ∃ d ∈ searchDirs, location d = some dir

def ImportsFile (fs : FileSystem Path) (a : Path) (file : Option String) : Prop :=
  ∃ source, fs.read a = some source ∧ ∃ name ∈ importNames source, file = some (name ++ ".tla")

namespace Linkless
variable {location : Path → Option Path} {fileName : Path → Option String} {dirs : List Path}
  {root a b p q : Path} {name : String}

theorem resolved (h : Linkless fs location fileName) (ha : location (fs.directory a) =
      some (fs.directory a)) (hb : fs.Resolves dirs (fs.directory a) name b) :
    (fs.directory b = fs.directory a ∨ Searched location dirs (fs.directory b)) ∧
      fileName b = some (name ++ ".tla") ∧ fs.canonicalize b = .ok b := by
  obtain ⟨⟨dir, hdir, hpresent⟩, hall⟩ := hb
  have hcanon := hall dir hdir hpresent
  obtain ⟨hloc, hname, hself⟩ := (h.candidate dir name b).mp hcanon
  refine ⟨?_, hname, hself⟩
  rcases List.mem_cons.mp hdir with rfl | hdir
  · rw [ha] at hloc
    exact Or.inl (Option.some.inj hloc).symm
  · exact Or.inr ⟨dir, hdir, hloc⟩

theorem only (h : Linkless fs location fileName) (ha : location (fs.directory a) =
      some (fs.directory a)) (hb : fs.Resolves dirs (fs.directory a) name b)
    (hq : fs.canonicalize q = .ok q) (hname : fileName q = some (name ++ ".tla"))
    (hplace : fs.directory q = fs.directory a ∨ Searched location dirs (fs.directory q)) :
    q = b := by
  have hdir : ∃ dir ∈ fs.directory a :: dirs, location dir = some (fs.directory q) := by
    rcases hplace with heq | ⟨dir, hdir, hloc⟩
    · refine ⟨fs.directory a, List.mem_cons_self, ?_⟩
      rw [ha, heq]
    · exact ⟨dir, List.mem_cons_of_mem _ hdir, hloc⟩
  obtain ⟨dir, hmem, hloc⟩ := hdir
  have hcanon := (h.candidate dir name q).mpr ⟨hloc, hname, hq⟩
  have hb' := hb.2 dir hmem ((h.present_iff _).mpr ⟨q, hcanon⟩)
  rw [hcanon] at hb'
  exact Except.ok.inj hb'

theorem reached (h : Linkless fs location fileName)
    (hroot : fs.canonicalize root = .ok root)
    (ha : Relation.ReflTransGen (fs.Imports dirs) root a) :
    fs.canonicalize a = .ok a ∧
      (fs.directory a = fs.directory root ∨ Searched location dirs (fs.directory a)) := by
  induction ha with
  | refl => exact ⟨hroot, Or.inl rfl⟩
  | @tail a b ha hb ih =>
    obtain ⟨source, hsource, name, hname, hresolves⟩ := hb
    have hread : fs.read a ≠ none := by simp [hsource]
    obtain ⟨hplace, -, hself⟩ := h.resolved (h.directory a ih.1 hread) hresolves
    refine ⟨hself, ?_⟩
    rcases hplace with heq | hsearched
    · rw [heq]
      exact ih.2
    · exact Or.inr hsearched

theorem location_reached (h : Linkless fs location fileName) (hclosed : fs.Closed dirs root)
    (hroot : fs.canonicalize root = .ok root)
    (ha : Relation.ReflTransGen (fs.Imports dirs) root a) :
    location (fs.directory a) = some (fs.directory a) := by
  obtain ⟨source, hsource, -⟩ := hclosed a ha
  exact h.directory a (h.reached hroot ha).1 (by simp [hsource])

theorem imported (h : Linkless fs location fileName) (hclosed : fs.Closed dirs root)
    (hroot : fs.canonicalize root = .ok root)
    (hp : Relation.ReflTransGen (fs.Imports dirs) root p) (hne : p ≠ root) :
    ∃ a source name, Relation.ReflTransGen (fs.Imports dirs) root a ∧
      location (fs.directory a) = some (fs.directory a) ∧ fs.read a = some source ∧
      name ∈ importNames source ∧ fs.Resolves dirs (fs.directory a) name p ∧
      fileName p = some (name ++ ".tla") := by
  rcases Relation.ReflTransGen.cases_tail hp with heq | ⟨a, ha, source, hsource, name, hname, hres⟩
  · exact absurd heq hne
  · have hloc := h.location_reached hclosed hroot ha
    exact ⟨a, source, name, ha, hloc, hsource, hname, hres, (h.resolved hloc hres).2.1⟩

/-- Two files of a closure that share a name are one file, or one of them is the root. -/
theorem unique (h : Linkless fs location fileName) (hclosed : fs.Closed dirs root)
    (hroot : fs.canonicalize root = .ok root)
    (hp : Relation.ReflTransGen (fs.Imports dirs) root p)
    (hq : Relation.ReflTransGen (fs.Imports dirs) root q) (hpr : p ≠ root) (hqr : q ≠ root)
    (hname : fileName p = fileName q) : p = q := by
  obtain ⟨a, _, m, -, hloca, -, -, hresp, hm⟩ := h.imported hclosed hroot hp hpr
  obtain ⟨b, _, n, -, hlocb, -, -, hresq, hn⟩ := h.imported hclosed hroot hq hqr
  obtain ⟨hselfp, hplacep⟩ := h.reached hroot hp
  obtain ⟨hselfq, hplaceq⟩ := h.reached hroot hq
  by_cases hsp : Searched location dirs (fs.directory p)
  · -- `p` is then a candidate of the import that stands for `q`
    exact h.only hlocb hresq hselfp (hname.trans hn) (Or.inr hsp)
  · by_cases hsq : Searched location dirs (fs.directory q)
    · exact (h.only hloca hresp hselfq (hname.symm.trans hm) (Or.inr hsq)).symm
    · have hp' := hplacep.resolve_right hsp
      have hq' := hplaceq.resolve_right hsq
      exact h.named p q hselfp hselfq (by simp [hm]) (hp'.trans hq'.symm) hname

/-- Another file has the name of the root exactly when the root's directory is not searched and
a file in another directory imports a module of the root's name. -/
theorem shadowed (h : Linkless fs location fileName) (hclosed : fs.Closed dirs root)
    (hroot : fs.canonicalize root = .ok root) :
    (∃ q, Relation.ReflTransGen (fs.Imports dirs) root q ∧ q ≠ root ∧
        fileName q = fileName root) ↔
      ¬ Searched location dirs (fs.directory root) ∧
        ∃ a, Relation.ReflTransGen (fs.Imports dirs) root a ∧
          fs.directory a ≠ fs.directory root ∧ fs.ImportsFile a (fileName root) := by
  constructor
  · rintro ⟨q, hq, hne, hname⟩
    obtain ⟨a, source, n, ha, hloc, hsource, hn, hres, hfile⟩ := h.imported hclosed hroot hq hne
    have hrootName : fileName root = some (n ++ ".tla") := hname.symm.trans hfile
    refine ⟨fun hs => ?_, a, ha, fun heq => ?_, source, hsource, n, hn, hrootName⟩
    · exact hne (h.only hloc hres hroot hrootName (Or.inr hs)).symm
    · exact hne (h.only hloc hres hroot hrootName (Or.inl heq.symm)).symm
  · rintro ⟨hns, a, ha, hdir, source, hsource, n, hn, hrootName⟩
    have hloc := h.location_reached hclosed hroot ha
    obtain ⟨s, hs, hall⟩ := hclosed a ha
    obtain rfl : s = source := by
      rw [hs] at hsource
      exact Option.some.inj hsource
    obtain ⟨b, hres⟩ := hall n hn
    obtain ⟨hplace, hfile, -⟩ := h.resolved hloc hres
    refine ⟨b, ha.tail ⟨s, hs, n, hn, hres⟩, ?_, hfile.trans hrootName.symm⟩
    rintro rfl
    rcases hplace with heq | hs'
    · exact hdir heq.symm
    · exact hns hs'

end Linkless
end FileSystem

/-! ### Trees of files -/

theorem lookup_filterMap {α κ β γ : Type} [BEq α] [LawfulBEq α] [DecidableEq κ] {f : α → κ}
    (hf : ∀ a b, f a = f b → a = b) (g : β → Option γ) {entries : List (α × β)}
    (hnodup : (entries.map Prod.fst).Nodup) (a : α) :
    (entries.filterMap fun e => (g e.2).map fun c => (f e.1, c)).lookup (f a) =
      (entries.lookup a).bind g := by
  induction entries with
  | nil => rfl
  | cons e entries ih =>
    obtain ⟨key, value⟩ := e
    obtain ⟨hnot, hnodup⟩ := List.nodup_cons.mp hnodup
    have hih := ih hnodup
    by_cases heq : a = key
    · subst heq
      have hrest : entries.lookup a = none := by
        rw [List.lookup_eq_none_iff]
        intro x hx
        have hx' : x.1 ≠ a := fun h => hnot (List.mem_map.mpr ⟨x, hx, h⟩)
        simpa using hx'.symm
      rw [hrest] at hih
      rw [List.lookup_cons_self, Option.bind_some]
      cases hvalue : g value with
      | none => simpa [List.filterMap_cons, hvalue] using hih
      | some c => simp [hvalue]
    · have hlookup : List.lookup a ((key, value) :: entries) = entries.lookup a := by
        rw [List.lookup_cons, beq_eq_false_iff_ne.mpr heq]
      rw [hlookup, ← hih]
      have hne : f a ≠ f key := fun h => heq (hf a key h)
      cases hvalue : g value with
      | none => simp [hvalue]
      | some c =>
        rw [List.filterMap_cons_some (by rw [hvalue]; rfl), List.lookup_cons,
          beq_eq_false_iff_ne.mpr hne]

/-- A component of a path, as `std::path::Component` on Unix. -/
inductive Component
  | rootDir
  | curDir
  | parentDir
  | normal (name : String)
deriving DecidableEq

namespace Component

def text : Component → String
  | rootDir => ""
  | curDir => "."
  | parentDir => ".."
  | normal name => name

end Component

/-- What is at a path. The source is missing where a file cannot be read as text. -/
inductive Entry
  | directory
  | file (source : Option String)
deriving DecidableEq

namespace Entry

def source : Entry → Option String
  | directory => none
  | file source => source

end Entry

/-- The directory of an entry is there, and a place holds one entry. `refusal` is the text of the
operating system for a path that cannot be opened. -/
structure Tree where
  entries : List (List String × Entry)
  nodup : (entries.map Prod.fst).Nodup
  top : entries.lookup [] = some .directory
  parents : ∀ e ∈ entries, e.1 ≠ [] → entries.lookup e.1.dropLast = some .directory
  workingDirectory : List String
  working : entries.lookup workingDirectory = some .directory
  refusal : List Component → String

namespace Tree

def absolute (place : List String) : List Component := .rootDir :: place.map .normal

/-- The name of the file, as `Path::file_name`. -/
def fileName (path : List Component) : Option String :=
  match path.getLast? with
  | some (.normal name) => some name
  | _ => none

/-- As `Path::parent`. -/
def parent (path : List Component) : Option (List Component) :=
  match path.getLast? with
  | none | some .rootDir => none
  | _ => some path.dropLast

def display (path : List Component) : String :=
  if path = [.rootDir] then "/" else "/".intercalate (path.map Component.text)

variable (t : Tree)

def follow (place : List String) : Component → Option (List String)
  | .rootDir => some []
  | .curDir => if t.entries.lookup place = some .directory then some place else none
  | .parentDir => if t.entries.lookup place = some .directory then some place.dropLast else none
  | .normal name =>
    if (t.entries.lookup (place ++ [name])).isSome then some (place ++ [name]) else none

def walk (path : List Component) : Option (List String) :=
  path.foldlM t.follow t.workingDirectory

/-- The directory that a path leads to; the empty path leads to the working directory. -/
def location (path : List Component) : Option (List Component) := (t.walk path).map absolute

/-- The answers of the standard library. The empty path names nothing. -/
def fileSystem : FileSystem (List Component) where
  files := t.entries.filterMap fun e => e.2.source.map fun source => (absolute e.1, source)
  present path := path ≠ [] ∧ (t.walk path).isSome
  canonicalize path :=
    match t.walk path with
    | some place => if path = [] then .error (t.refusal path) else .ok (absolute place)
    | none => .error (t.refusal path)
  readError := t.refusal
  join path name := path ++ [.normal name]
  parent := parent
  here := [.curDir]
  display := display

variable {t}

theorem absolute_concat (place : List String) (name : String) :
    absolute (place ++ [name]) = absolute place ++ [.normal name] := by
  simp [absolute]

theorem absolute_injective {a b : List String} (h : absolute a = absolute b) : a = b := by
  have hmap : a.map Component.normal = b.map Component.normal := List.cons.inj h |>.2
  exact List.map_injective_iff.mpr (fun _ _ => Component.normal.inj) hmap

theorem absolute_ne_nil (place : List String) : absolute place ≠ [] := nofun

@[simp] theorem fileName_concat (path : List Component) (name : String) :
    fileName (path ++ [.normal name]) = some name := by
  simp [fileName]

theorem directory_concat (path : List Component) (name : String) :
    t.fileSystem.directory (path ++ [.normal name]) = path := by
  simp [FileSystem.directory, fileSystem, parent]

theorem exists_concat {path : List Component} {name : String} (h : fileName path = some name) :
    ∃ dir, path = dir ++ [.normal name] := by
  unfold fileName at h
  split at h
  · rename_i last hlast
    cases h
    exact ⟨path.dropLast, (List.dropLast_append_getLast? _ hlast).symm⟩
  · cases h

theorem lookup_isSome {place : List String} :
    (t.entries.lookup place).isSome ↔ ∃ e ∈ t.entries, e.1 = place := by
  rw [List.lookup_isSome_iff]
  refine exists_congr fun e => and_congr_right fun _ => ?_
  rw [beq_iff_eq]
  exact eq_comm

/-- The directory of an entry is a directory. -/
theorem lookup_dropLast {place : List String} (h : (t.entries.lookup place).isSome) :
    t.entries.lookup place.dropLast = some .directory := by
  by_cases hnil : place = []
  · rw [hnil]
    exact t.top
  · obtain ⟨e, he, rfl⟩ := lookup_isSome.mp h
    exact t.parents e he hnil

theorem walk_concat (path : List Component) (c : Component) :
    t.walk (path ++ [c]) = (t.walk path).bind fun place => t.follow place c := by
  simp [walk, List.foldlM_append, Option.bind_eq_bind]

theorem walk_isSome {path : List Component} {place : List String} (h : t.walk path = some place) :
    (t.entries.lookup place).isSome := by
  induction path using List.reverseRecOn generalizing place with
  | nil =>
    cases h
    rw [t.working]
    rfl
  | append_singleton path c ih =>
    rw [walk_concat, Option.bind_eq_some_iff] at h
    obtain ⟨before, hbefore, hfollow⟩ := h
    have hat := ih hbefore
    cases c with
    | rootDir =>
      cases hfollow
      rw [t.top]
      rfl
    | curDir =>
      simp only [follow, Option.ite_none_right_eq_some, Option.some.injEq] at hfollow
      rw [← hfollow.2]
      exact hat
    | parentDir =>
      simp only [follow, Option.ite_none_right_eq_some, Option.some.injEq] at hfollow
      rw [← hfollow.2, lookup_dropLast hat]
      rfl
    | normal name =>
      simp only [follow, Option.ite_none_right_eq_some, Option.some.injEq] at hfollow
      rw [← hfollow.2]
      exact hfollow.1

theorem walk_absolute {place : List String} (h : (t.entries.lookup place).isSome) :
    t.walk (absolute place) = some place := by
  induction place using List.reverseRecOn with
  | nil => rfl
  | append_singleton place name ih =>
    have hdir : t.entries.lookup place = some .directory := by
      simpa using lookup_dropLast h
    rw [absolute_concat, walk_concat, ih (by simp [hdir]), Option.bind_some, follow, if_pos h]

theorem canonicalize_eq_ok {path p : List Component} :
    t.fileSystem.canonicalize path = .ok p ↔
      path ≠ [] ∧ ∃ place, t.walk path = some place ∧ p = absolute place := by
  simp only [fileSystem]
  cases t.walk path with
  | none => simp
  | some place =>
    by_cases hnil : path = []
    · simp [hnil]
    · simp [hnil, eq_comm]

theorem canonical_iff {p : List Component} :
    t.fileSystem.canonicalize p = .ok p ↔
      ∃ place, (t.entries.lookup place).isSome ∧ p = absolute place := by
  rw [canonicalize_eq_ok]
  constructor
  · rintro ⟨-, place, hwalk, hp⟩
    exact ⟨place, walk_isSome hwalk, hp⟩
  · rintro ⟨place, hplace, rfl⟩
    exact ⟨absolute_ne_nil place, place, walk_absolute hplace, rfl⟩

theorem read_absolute (place : List String) :
    t.fileSystem.read (absolute place) = (t.entries.lookup place).bind Entry.source :=
  lookup_filterMap (fun _ _ => absolute_injective) Entry.source t.nodup place

theorem directory_canonical {p : List Component} (hp : t.fileSystem.canonicalize p = .ok p)
    (hread : t.fileSystem.read p ≠ none) :
    t.location (t.fileSystem.directory p) = some (t.fileSystem.directory p) := by
  obtain ⟨place, hplace, rfl⟩ := canonical_iff.mp hp
  rcases List.eq_nil_or_concat place with rfl | ⟨dir, name, rfl⟩
  · rw [read_absolute, t.top] at hread
    exact absurd rfl hread
  · have hdir : t.entries.lookup dir = some .directory := by
      simpa using lookup_dropLast hplace
    rw [List.concat_eq_append, absolute_concat, directory_concat, location,
      walk_absolute (by simp [hdir])]
    rfl

theorem canonicalize_candidate (dir : List Component) (name : String) (p : List Component) :
    t.fileSystem.canonicalize (t.fileSystem.candidate dir name) = .ok p ↔
      t.location dir = some (t.fileSystem.directory p) ∧ fileName p = some (name ++ ".tla") ∧
        t.fileSystem.canonicalize p = .ok p := by
  have hcandidate : t.fileSystem.candidate dir name = dir ++ [.normal (name ++ ".tla")] := rfl
  rw [hcandidate, canonicalize_eq_ok, walk_concat]
  constructor
  · rintro ⟨-, place, hwalk, rfl⟩
    obtain ⟨at', hat, hfollow⟩ := Option.bind_eq_some_iff.mp hwalk
    simp only [follow, Option.ite_none_right_eq_some, Option.some.injEq] at hfollow
    obtain ⟨hentry, rfl⟩ := hfollow
    rw [absolute_concat, directory_concat, fileName_concat, location, hat, ← absolute_concat]
    exact ⟨rfl, rfl, canonical_iff.mpr ⟨_, hentry, rfl⟩⟩
  · rintro ⟨hloc, hname, hself⟩
    obtain ⟨place, hplace, rfl⟩ := canonical_iff.mp hself
    obtain ⟨front, hfront⟩ := exists_concat hname
    rcases List.eq_nil_or_concat place with rfl | ⟨at', last, rfl⟩
    · simp [absolute, fileName] at hname
    · rw [List.concat_eq_append] at hplace ⊢
      rw [List.concat_eq_append, absolute_concat] at hloc hname
      rw [directory_concat, location, Option.map_eq_some_iff] at hloc
      obtain ⟨at'', hwalk, hat⟩ := hloc
      obtain rfl := absolute_injective hat
      obtain rfl : last = name ++ ".tla" := by simpa using hname
      refine ⟨by simp, at'' ++ [name ++ ".tla"], ?_, rfl⟩
      rw [hwalk, Option.bind_some, follow, if_pos hplace]

theorem linkless (t : Tree) : t.fileSystem.Linkless t.location fileName where
  present_iff path := by
    have hpresent : t.fileSystem.present path = true ↔ path ≠ [] ∧ (t.walk path).isSome := by
      simp [fileSystem]
    simp only [hpresent, canonicalize_eq_ok, Option.isSome_iff_exists]
    constructor
    · rintro ⟨hnil, place, hwalk⟩
      exact ⟨absolute place, hnil, place, hwalk, rfl⟩
    · rintro ⟨p, hnil, place, hwalk, -⟩
      exact ⟨hnil, place, hwalk⟩
  canonical path p h := by
    obtain ⟨-, place, hwalk, rfl⟩ := canonicalize_eq_ok.mp h
    exact canonical_iff.mpr ⟨place, walk_isSome hwalk, rfl⟩
  candidate := canonicalize_candidate
  directory p := directory_canonical
  named p q hp hq hname hdir heq := by
    obtain ⟨name, hn⟩ := Option.ne_none_iff_exists'.mp hname
    obtain ⟨a, rfl⟩ := exists_concat hn
    obtain ⟨b, rfl⟩ := exists_concat (heq.symm.trans hn)
    rw [directory_concat, directory_concat] at hdir
    rw [hdir]

open FileSystem in
/-- Among the files whose sources are returned, only the root can share its name with another. It
does so exactly when its directory is not searched and a file in another directory imports a module
of its name. -/
theorem spec_module_names (t : Tree) (fuel : ℕ) (root : List Component)
    (searchDirs : List (List Component)) (libraryPath : Option (List (List Component)))
    (sources : List String)
    (h : t.fileSystem.specFromFiles fuel root searchDirs libraryPath = some (.ok sources)) :
    ∃ path order, t.fileSystem.canonicalize root = .ok path ∧
      sources.map some = order.map t.fileSystem.read ∧
      t.fileSystem.ListsClosure (searchPath searchDirs libraryPath) path order ∧
      (∀ p ∈ order, ∀ q ∈ order, p ≠ q → fileName p = fileName q → p = path ∨ q = path) ∧
      ((∃ q ∈ order, q ≠ path ∧ fileName q = fileName path) ↔
        ¬ Searched t.location (searchPath searchDirs libraryPath) (t.fileSystem.directory path) ∧
          ∃ a ∈ order, t.fileSystem.directory a ≠ t.fileSystem.directory path ∧
            t.fileSystem.ImportsFile a (fileName path)) := by
  obtain ⟨path, order, hcanon, hclosed, hsources, hlist⟩ := specFromFiles_ok h
  have hpath := t.linkless.canonical root path hcanon
  refine ⟨path, order, hcanon, hsources, hlist, fun p hp q hq hne hname => ?_, ?_⟩
  · by_contra hother
    push Not at hother
    have hp' := (hlist.mem_iff p).mp hp
    have hq' := (hlist.mem_iff q).mp hq
    exact hne (t.linkless.unique hclosed hpath hp' hq' hother.1 hother.2 hname)
  · simp only [hlist.mem_iff]
    exact t.linkless.shadowed hclosed hpath

/-- The root `R` is in a directory that is not searched, and a library has a module `R` too. -/
def shadowing : Tree where
  entries :=
    [([], .directory), (["root"], .directory), (["lib"], .directory),
      (["root", "R.tla"], .file (some "EXTENDS A")), (["lib", "A.tla"], .file (some "EXTENDS R")),
      (["lib", "R.tla"], .file (some "VARIABLE x"))]
  nodup := by decide
  top := by decide
  parents := by decide
  workingDirectory := []
  working := by decide
  refusal _ := "not found"

theorem shadowing_sources :
    shadowing.fileSystem.specFromFiles 9 [.normal "root", .normal "R.tla"] [[.normal "lib"]] none =
      some (.ok ["EXTENDS A", "EXTENDS R", "VARIABLE x"]) := by
  have hok : (shadowing.fileSystem.specFromFiles 9 [.normal "root", .normal "R.tla"]
      [[.normal "lib"]] none).bind Except.toOption =
        some ["EXTENDS A", "EXTENDS R", "VARIABLE x"] := by decide +kernel
  obtain ⟨answer, hanswer, hsources⟩ := Option.bind_eq_some_iff.mp hok
  rw [hanswer]
  cases answer with
  | error e => cases hsources
  | ok sources => rw [Option.some.inj hsources]

theorem spec_module_names_shadowing :
    ∃ (path : List Component) (order : List (List Component)),
      shadowing.fileSystem.canonicalize [.normal "root", .normal "R.tla"] = .ok path ∧
      ["EXTENDS A", "EXTENDS R", "VARIABLE x"].map some = order.map shadowing.fileSystem.read ∧
      ∀ p ∈ order, ∀ q ∈ order, p ≠ q → fileName p = fileName q → p = path ∨ q = path := by
  obtain ⟨path, order, hcanon, hsources, -, hnames, -⟩ :=
    spec_module_names shadowing 9 [.normal "root", .normal "R.tla"] [[.normal "lib"]] none _
      shadowing_sources
  exact ⟨path, order, hcanon, hsources, hnames⟩

theorem read_shadowing {p : List Component} {source : String}
    (h : shadowing.fileSystem.read p = some source) :
    (p, source) ∈ [(absolute ["root", "R.tla"], "EXTENDS A"),
      (absolute ["lib", "A.tla"], "EXTENDS R"), (absolute ["lib", "R.tla"], "VARIABLE x")] :=
  FileSystem.mem_of_read h

open FileSystem in
/-- Two sources of one answer can come from files of one name. -/
theorem spec_module_names_repeat :
    ¬ ∀ (t : Tree) (fuel : ℕ) (root : List Component) (searchDirs : List (List Component))
        (libraryPath : Option (List (List Component))) (sources : List String),
      t.fileSystem.specFromFiles fuel root searchDirs libraryPath = some (.ok sources) →
      ∀ path order, t.fileSystem.canonicalize root = .ok path →
        sources.map some = order.map t.fileSystem.read →
        t.fileSystem.ListsClosure (searchPath searchDirs libraryPath) path order →
        (order.map fileName).Nodup := by
  intro h
  obtain ⟨path, order, hcanon, -, hsources, hlist⟩ := specFromFiles_ok shadowing_sources
  have hnodup := h shadowing 9 _ _ none _ shadowing_sources path order hcanon hsources hlist
  obtain ⟨p, hpOrder, hp⟩ := List.mem_map.mp (hsources ▸ List.mem_map_of_mem List.mem_cons_self :
    some "EXTENDS A" ∈ order.map shadowing.fileSystem.read)
  obtain ⟨r, hrOrder, hr⟩ := List.mem_map.mp (hsources ▸ List.mem_map_of_mem (by simp) :
    some "VARIABLE x" ∈ order.map shadowing.fileSystem.read)
  have hp' : p = absolute ["root", "R.tla"] := by simpa using read_shadowing hp
  have hr' : r = absolute ["lib", "R.tla"] := by simpa using read_shadowing hr
  have heq := List.inj_on_of_nodup_map hnodup hpOrder hrOrder (by rw [hp', hr']; rfl)
  rw [hp', hr'] at heq
  exact absurd (absolute_injective heq) (by decide)

end Tree
end MirrorRust
