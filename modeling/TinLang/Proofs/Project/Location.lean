import Mathlib.Data.List.Nodup
import Mathlib.Data.List.Perm.Subperm
import TinLang.Project.Manifest
import TinLang.Proofs.Text

/-!
# Clean locations

A location is clean when each of its names stands for itself in a path. Such a location can be read
back from its path, so two of them with one path are equal, and whatever a path leads to from a
clean location is clean again. A project in a clean location has its manifest among the files of the
file system, at the place below.
-/
namespace TinLang

namespace Text

theorem mem_splitAt_free {separator : UInt8} {text piece : Text}
    (mem : piece ∈ splitAt separator text) :
    ∀ byte ∈ piece, byte ≠ separator := by
  fun_induction splitAt separator text generalizing piece with
  | case1 =>
    obtain rfl := List.mem_singleton.mp mem
    exact fun byte inside => absurd inside List.not_mem_nil
  | case2 text ih =>
    rcases List.mem_cons.mp mem with rfl | mem
    · exact fun byte inside => absurd inside List.not_mem_nil
    · exact ih mem
  | case3 head text apart none ih =>
    obtain rfl := List.mem_singleton.mp mem
    exact fun byte inside => List.mem_singleton.mp inside ▸ apart
  | case4 head text apart first pieces split ih =>
    rcases List.mem_cons.mp mem with rfl | mem
    · intro byte inside
      rcases List.mem_cons.mp inside with rfl | inside
      · exact apart
      · exact ih (split ▸ List.mem_cons_self) byte inside
    · exact ih (split ▸ List.mem_cons_of_mem _ mem)

theorem splitAt_of_free {separator : UInt8} {text : Text} (free : ∀ byte ∈ text, byte ≠ separator) :
    splitAt separator text = [text] := by
  induction text with
  | nil => rfl
  | cons byte text ih =>
    simp [splitAt, free byte (by simp), ih fun other mem => free other (by simp [mem])]

/-- Names with slashes between them are split into the same names. -/
theorem splitAt_join {names : List Text} (some : names ≠ [])
    (free : ∀ name ∈ names, ∀ byte ∈ name, byte ≠ Path.separator) :
    splitAt Path.separator (join "/" names) = names := by
  induction names with
  | nil => contradiction
  | cons name names ih =>
    cases names with
    | nil => exact splitAt_of_free (free name (by simp))
    | cons next names =>
      have later := ih (by simp) fun other mem => free other (List.mem_cons_of_mem _ mem)
      have shape : join "/" (name :: next :: names) =
          name ++ Path.separator :: join "/" (next :: names) := by
        rw [join, List.append_assoc]
        · rfl
        · simp
      rw [shape, splitAt_cons_free (free name (by simp)), later]

end Text

/-- A name that stands for itself in a path. -/
structure Path.Plain (name : Text) : Prop where
  some : name ≠ []
  here : name ≠ "."
  above : name ≠ ".."
  free : ∀ byte ∈ name, byte ≠ separator

namespace Location

/-- All names of a location stand for themselves. -/
def Clean (location : Location) : Prop := ∀ name ∈ location, Path.Plain name

theorem clean_nil : Clean [] := fun _ mem => absurd mem List.not_mem_nil

theorem Clean.append {location : Location} (clean : location.Clean) {name : Text}
    (plain : Path.Plain name) : Clean (location ++ [name]) := by
  intro other mem
  rcases List.mem_append.mp mem with mem | mem
  · exact clean other mem
  · exact List.mem_singleton.mp mem ▸ plain

theorem Clean.descend {location : Location} (clean : location.Clean) {name : Text}
    (some : name ≠ [])
    (here : name ≠ ".") (free : ∀ byte ∈ name, byte ≠ Path.separator) :
    Clean (Path.descend true location name) := by
  unfold Path.descend
  split
  · split
    · exact clean_nil
    · next last found =>
      have plain := clean last (List.mem_of_getLast? found)
      rw [if_neg plain.above]
      exact fun other mem => clean other ((List.dropLast_sublist _).subset mem)
  · next above => exact clean.append ⟨some, here, above, free⟩

theorem Clean.join {location : Location} (clean : location.Clean) (path : Text) :
    (location.join path).Clean := by
  have pieces : ∀ name ∈ Path.names path,
      name ≠ [] ∧ name ≠ "." ∧ ∀ byte ∈ name, byte ≠ Path.separator := by
    intro name mem
    obtain ⟨piece, kept⟩ := List.mem_filter.mp mem
    rw [Bool.and_eq_true, bne_iff_ne, Bool.not_eq_true', List.isEmpty_eq_false_iff] at kept
    exact ⟨kept.1, kept.2, Text.mem_splitAt_free piece⟩
  unfold Location.join
  generalize Path.names path = names at pieces
  induction names generalizing location with
  | nil => exact clean
  | cons name names ih =>
    obtain ⟨some, here, free⟩ := pieces name List.mem_cons_self
    exact ih (clean.descend some here free) fun other mem =>
      pieces other (List.mem_cons_of_mem _ mem)

theorem Clean.resolve {location : Location} (clean : location.Clean) (path : Text) :
    (location.resolve path).Clean := by
  unfold Location.resolve
  split
  · exact clean_nil.join path
  · exact clean.join path

theorem splitAt_path {location : Location} (clean : location.Clean) (some : location ≠ []) :
    location.path.splitAt Path.separator = [] :: location := by
  rw [path, Text.splitAt, if_pos rfl, Text.splitAt_join some fun name mem => (clean name mem).free]

/-- A clean location is the only one of its path. -/
theorem path_injective {first second : Location} (clean : first.Clean) (other : second.Clean)
    (same : first.path = second.path) : first = second := by
  by_cases none : first = []
  · by_cases none' : second = []
    · rw [none, none']
    · have split := splitAt_path other none'
      rw [← same, none] at split
      obtain rfl : second = [[]] := (List.cons.inj split).2.symm
      exact absurd rfl (other [] List.mem_cons_self).some
  · have split := splitAt_path clean none
    by_cases none' : second = []
    · rw [same, none'] at split
      obtain rfl : first = [[]] := (List.cons.inj split).2.symm
      exact absurd rfl (clean [] List.mem_cons_self).some
    · rw [same, splitAt_path other none'] at split
      exact (List.cons.inj split).2.symm

end Location

namespace FileSystem

variable {system : FileSystem}

/-- Walking along plain names only goes down. -/
theorem eq_of_walk {names : Location} (clean : names.Clean) {directory found : Location}
    (walked : system.walk directory names = .ok found) : found = directory ++ names := by
  induction names generalizing directory with
  | nil =>
    rw [walk] at walked
    rw [List.append_nil, Except.ok.inj walked]
  | cons name names ih =>
    have plain := clean name List.mem_cons_self
    rw [walk, if_neg (by simp [plain.some, plain.here]), if_neg plain.above] at walked
    split at walked
    · contradiction
    · dsimp only at walked
      split at walked
      · next last =>
        obtain rfl := List.isEmpty_iff.mp last
        exact (Except.ok.inj walked).symm
      · split at walked
        · rw [ih (fun other mem => clean other (List.mem_cons_of_mem _ mem)) walked,
            List.append_assoc, List.singleton_append]
        · contradiction
        · contradiction

/-- The path of a clean location leads there, or nowhere. -/
theorem eq_of_locate {location found : Location} (clean : location.Clean)
    (located : system.locate location.path = .ok found) : found = location := by
  unfold locate at located
  split at located
  · contradiction
  split at located
  · contradiction
  split at located
  · contradiction
  have starts : location.path.head? = some (Text.byte '/') := rfl
  dsimp only at located
  rw [if_pos starts] at located
  by_cases none : location = []
  · subst none
    exact (Except.ok.inj located).symm
  · have split := Location.splitAt_path clean none
    rw [Path.separator] at split
    rw [split, walk, if_pos (.inl rfl)] at located
    exact eq_of_walk clean located

end FileSystem

namespace Manifest

variable {loader : Loader} {system : FileSystem} {location : Location} {manifest : Manifest}

theorem join_fileName (location : Location) : location.join fileName = location ++ [fileName] := by
  have names : Path.names fileName = [fileName] := by decide
  rw [Location.join, names, List.foldl_cons, List.foldl_nil, Path.descend, if_neg (by decide)]

theorem plain_fileName : Path.Plain fileName :=
  ⟨by decide, by decide, by decide, fun _ mem same => absurd (same ▸ mem) (by decide)⟩

/-- A manifest that can be loaded is one of the files. -/
theorem mem_nodes_of_load (clean : location.Clean)
    (loaded : load loader system location = .ok manifest) :
    location ++ [fileName] ∈ system.nodes.map Prod.fst := by
  unfold load at loaded
  dsimp only at loaded
  rw [join_fileName] at loaded
  cases content : system.read (location ++ [fileName]).path with
  | error cause =>
    rw [content] at loaded
    contradiction
  | ok text =>
    unfold FileSystem.read at content
    split at content
    · contradiction
    next found located =>
      obtain rfl := FileSystem.eq_of_locate (clean.append plain_fileName) located
      split at content
      · next file =>
        rw [FileSystem.node?, if_neg (by simp)] at file
        obtain ⟨before, after, whole, _⟩ := List.lookup_eq_some_iff.mp file
        rw [whole]
        simp
      · contradiction
      · contradiction

/-- No more projects can be loaded than there are files. -/
theorem length_le_nodes {projects : List Location} (nodup : projects.Nodup)
    (loaded : ∀ project ∈ projects,
      project.Clean ∧ ∃ manifest, load loader system project = .ok manifest) :
    projects.length ≤ system.nodes.length := by
  have inside : projects.map (· ++ [fileName]) ⊆ system.nodes.map Prod.fst := by
    intro place mem
    obtain ⟨project, listed, rfl⟩ := List.mem_map.mp mem
    obtain ⟨clean, manifest, loaded⟩ := loaded project listed
    exact mem_nodes_of_load clean loaded
  have apart : (projects.map (· ++ [fileName])).Nodup :=
    nodup.map fun _ _ same => List.append_cancel_right same
  calc
    projects.length = (projects.map (· ++ [fileName])).length := (List.length_map _).symm
    _ ≤ (system.nodes.map Prod.fst).length := (List.subperm_of_subset apart inside).length_le
    _ = system.nodes.length := List.length_map _

end Manifest

end TinLang
