import Mathlib.Logic.Relation
import TinLang.Project.Dependencies
import TinLang.Proofs.Project.Location

/-!
# The order of the dependencies

Projects and what they name as their dependencies make a graph. The search goes along its edges; the
projects that it is visiting lead from the first project to the one at hand, and those that it has
listed have all their dependencies before them. So a project that is named while it is being visited
lies on a cycle, and when the search ends without an error it has listed what can be reached.
-/
namespace TinLang

variable {listed : List Dependency} {visiting : List Location} {location : Location}
    {owner : Manifest} {dependency : Dependency}

namespace Manifest

/-- A manifest is loaded for the directory in which it was found. -/
theorem directory_of_load {loader : Loader} {system : FileSystem}
    {manifest : Manifest} (loaded : load loader system location = .ok manifest) :
    manifest.directory = location := by
  unfold load at loaded
  dsimp only at loaded
  cases content : system.read (location.join fileName).path with
  | error cause =>
    rw [content] at loaded
    contradiction
  | ok text =>
    rw [content] at loaded
    dsimp only at loaded
    cases found : loader.read? text with
    | none =>
      rw [found] at loaded
      contradiction
    | some read =>
      rw [found] at loaded
      rw [← Except.ok.inj loaded, withDefaults]

section Graph

variable (loader : Loader) (system : FileSystem)

/-- The project in one place names that in another as a dependency. -/
def Needs (owner location : Location) : Prop :=
  ∃ manifest, load loader system owner = .ok manifest ∧ ∃ name path,
    (name, path) ∈ manifest.dependencies ∧ path ≠ [] ∧ owner.resolve path = location

/-- The project in a place names a dependency that cannot be had: without a path, in a directory
that is not there, or without a manifest that can be loaded. -/
def Faulty (owner : Location) : Prop :=
  ∃ manifest, load loader system owner = .ok manifest ∧ ∃ name path,
    (name, path) ∈ manifest.dependencies ∧ (path = [] ∨
      (∃ cause, system.stat (owner.resolve path).path = .error cause) ∨
      ∃ cause, load loader system (owner.resolve path) = .error cause)

/-- A project that can be reached from a place, which may be the one there, is faulty or can be
reached from itself. -/
def Hopeless (root : Location) : Prop :=
  ∃ project, Relation.ReflTransGen (Needs loader system) root project ∧
    (Faulty loader system project ∨ Relation.TransGen (Needs loader system) project project)

/-- The projects that the one in a place depends on, each of them once, with its manifest and after
all that it needs itself. -/
structure LoadOrder (root : Location) (listed : List Dependency) : Prop where
  once : (listed.map fun dependency => dependency.location.path).Nodup
  reached : ∀ location, location ∈ listed.map Dependency.location ↔
    Relation.TransGen (Needs loader system) root location
  loaded : ∀ dependency ∈ listed, load loader system dependency.location = .ok dependency.manifest
  before : ∀ earlier dependency later, listed = earlier ++ dependency :: later →
    ∀ location,
      Needs loader system dependency.location location → location ∈ earlier.map Dependency.location
  root : root ∉ listed.map Dependency.location

end Graph

variable {loader : Loader} {system : FileSystem} {root : Location} {manifest : Manifest}

theorem Needs.clean {owner : Location} (needs : Needs loader system owner location)
    (clean : owner.Clean) : location.Clean := by
  obtain ⟨_, _, _, path, _, _, rfl⟩ := needs
  exact clean.resolve path

theorem mem_sortedDependencies {entry : Text × Text} :
    entry ∈ manifest.sortedDependencies ↔ entry ∈ manifest.dependencies :=
  List.mem_mergeSort

/-- A dependency that was found: it has a path, its directory exists, and it is one of those known
or was loaded. -/
structure Found (loader : Loader) (system : FileSystem) (known : List Dependency) (owner : Manifest)
    (path : Text)
    (dependency : Dependency) : Prop where
  some : path ≠ []
  place : dependency.location = owner.directory.resolve path
  stat : ∃ node, system.stat dependency.location.path = .ok node
  source : dependency ∈ known ∨ load loader system dependency.location = .ok dependency.manifest

theorem found_of_dependency {known : List Dependency} {name path : Text}
    (found : owner.dependency loader system known name path = .ok dependency) :
    Found loader system known owner path dependency := by
  unfold Manifest.dependency at found
  split at found
  · contradiction
  next some =>
    have some : path ≠ [] := by simpa using some
    dsimp only at found
    split at found
    · contradiction
    next node stat =>
      split at found
      · next other known' =>
        obtain rfl := Except.ok.inj found
        have place : other.location = owner.directory.resolve path := by
          simpa using List.find?_some known'
        exact ⟨some, place, ⟨node, place ▸ stat⟩, .inl (List.mem_of_find?_eq_some known')⟩
      split at found
      · contradiction
      next manifest loaded =>
        obtain rfl := Except.ok.inj found
        exact ⟨some, rfl, ⟨node, stat⟩, .inr loaded⟩

/-- A project is faulty when one of its dependencies is not found. -/
theorem faulty_of_dependency {known : List Dependency} {name path : Text}
    {error : DependencyError} (loaded : load loader system owner.directory = .ok owner)
    (mem : (name, path) ∈ owner.dependencies)
    (failed : owner.dependency loader system known name path = .error error) :
    Faulty loader system owner.directory := by
  refine ⟨owner, loaded, name, path, mem, ?_⟩
  unfold Manifest.dependency at failed
  split at failed
  · next none => exact .inl (List.isEmpty_iff.mp none)
  dsimp only at failed
  split at failed
  · next cause stat => exact .inr (.inl ⟨cause, stat⟩)
  split at failed
  · contradiction
  split at failed
  · next cause loaded => exact .inr (.inr ⟨cause, loaded⟩)
  · contradiction

/-- The projects that are being visited lead from the first one to the one at hand. -/
structure Trail (loader : Loader) (system : FileSystem) (root owner : Location)
    (visiting : List Location) : Prop where
  nodup : visiting.Nodup
  projects : ∀ project ∈ visiting, project.Clean ∧
    ∃ manifest, load loader system project = .ok manifest
  inside : owner ∈ visiting
  start : Relation.ReflTransGen (Needs loader system) root owner
  leads : ∀ project ∈ visiting, Relation.ReflTransGen (Needs loader system) project owner

theorem Trail.cons {owner : Location}
    (trail : Trail loader system root owner visiting) (needs : Needs loader system owner location)
    (fresh : location ∉ visiting) (loaded : load loader system location = .ok manifest) :
    Trail loader system root location (location :: visiting) where
  nodup := trail.nodup.cons fresh
  projects project mem := by
    rcases List.mem_cons.mp mem with rfl | mem
    · exact ⟨needs.clean (trail.projects owner trail.inside).1, manifest, loaded⟩
    · exact trail.projects project mem
  inside := List.mem_cons_self
  start := trail.start.tail needs
  leads project mem := by
    rcases List.mem_cons.mp mem with rfl | mem
    · exact .refl
    · exact (trail.leads project mem).tail needs

/-- The projects that are listed are sound and not being visited, and all that they need stands
before them. -/
structure Listing (loader : Loader) (system : FileSystem) (root : Location)
    (visiting : List Location)
    (listed : List Dependency) : Prop where
  nodup : (listed.map Dependency.location).Nodup
  loaded : ∀ dependency ∈ listed, load loader system dependency.location = .ok dependency.manifest
  reached : ∀ dependency ∈ listed, Relation.TransGen (Needs loader system) root dependency.location
  sound : ∀ dependency ∈ listed, ¬ Faulty loader system dependency.location
  before : ∀ earlier dependency later, listed = earlier ++ dependency :: later →
    ∀ location,
      Needs loader system dependency.location location → location ∈ earlier.map Dependency.location
  apart : ∀ dependency ∈ listed, dependency.location ∉ visiting

/-- The dependencies of a project are there and listed. -/
def Met (system : FileSystem) (owner : Manifest) (entries : List (Text × Text))
    (listed : List Dependency) : Prop :=
  ∀ name path, (name, path) ∈ entries → path ≠ [] ∧
    (∃ node, system.stat (owner.directory.resolve path).path = .ok node) ∧
    owner.directory.resolve path ∈ listed.map Dependency.location

/-- What a search ends with: the projects listed before and those needed, or an error for a reason.
-/
def Outcome (loader : Loader) (system : FileSystem) (root : Location) (visiting : List Location)
    (owner : Manifest)
    (entries : List (Text × Text)) (listed : List Dependency) :
    Except DependencyError (List Dependency) → Prop
  | .ok after =>
    Listing loader system root visiting after ∧ listed ⊆ after ∧ Met system owner entries after
  | .error _ => Hopeless loader system root

/-- A project whose dependencies are listed needs nothing else. -/
theorem Met.mem_of_needs {owner : Location}
    (met : Met system manifest manifest.dependencies listed)
    (loaded : load loader system owner = .ok manifest)
    (needs : Needs loader system owner location) : location ∈ listed.map Dependency.location := by
  obtain ⟨other, loaded', name, path, mem, _, rfl⟩ := needs
  obtain rfl : manifest = other := Except.ok.inj (loaded.symm.trans loaded')
  rw [← directory_of_load loaded]
  exact (met name path mem).2.2

theorem Met.sound {owner : Location}
    (met : Met system manifest manifest.dependencies listed)
    (listing : Listing loader system root visiting listed)
    (loaded : load loader system owner = .ok manifest) : ¬ Faulty loader system owner := by
  rintro ⟨other, loaded', name, path, mem, fault⟩
  obtain rfl : manifest = other := Except.ok.inj (loaded.symm.trans loaded')
  obtain ⟨some, ⟨node, stat⟩, there⟩ := met name path mem
  rw [directory_of_load loaded] at stat there
  rcases fault with none | ⟨cause, missing⟩ | ⟨cause, broken⟩
  · exact some none
  · rw [stat] at missing
    contradiction
  · obtain ⟨dependency, mem, place⟩ := List.mem_map.mp there
    have whole := listing.loaded dependency mem
    rw [place, broken] at whole
    contradiction

/-- A project that was visited is listed after what it needs. -/
theorem Listing.append
    (listing : Listing loader system root (dependency.location :: visiting) listed)
    (fresh : dependency.location ∉ visiting)
    (loaded : load loader system dependency.location = .ok dependency.manifest)
    (reached : Relation.TransGen (Needs loader system) root dependency.location)
    (met : Met system dependency.manifest dependency.manifest.dependencies listed) :
    Listing loader system root visiting (listed ++ [dependency]) := by
  have each : ∀ {test : Dependency → Prop}, (∀ other ∈ listed, test other) → test dependency →
      ∀ other ∈ listed ++ [dependency], test other := fun old new other mem =>
    (List.mem_append.mp mem).elim (old other) fun last => List.mem_singleton.mp last ▸ new
  refine ⟨?_, each listing.loaded loaded, each listing.reached reached,
    each listing.sound (met.sound listing loaded), ?_, each (fun other mem found => ?_) fresh⟩
  · rw [List.map_append, List.map_cons, List.map_nil]
    refine List.nodup_append.mpr ⟨listing.nodup, List.nodup_singleton _, ?_⟩
    rintro place mem _ last rfl
    obtain ⟨other, mem, same⟩ := List.mem_map.mp mem
    refine listing.apart other mem (same ▸ ?_)
    exact List.mem_singleton.mp last ▸ List.mem_cons_self
  · intro earlier other later split location needs
    rcases List.append_eq_append_iff.mp split with ⟨middle, rfl, last⟩ | ⟨middle, rfl, rest⟩
    · cases middle with
      | nil =>
        obtain ⟨rfl, rfl⟩ := List.cons.inj last
        rw [List.append_nil]
        exact met.mem_of_needs loaded needs
      | cons head middle =>
        have long := congrArg List.length last
        simp at long
    · cases middle with
      | nil =>
        obtain ⟨rfl, rfl⟩ := List.cons.inj rest
        rw [List.append_nil] at met
        exact met.mem_of_needs loaded needs
      | cons head middle =>
        obtain ⟨rfl, _⟩ := List.cons.inj rest
        exact listing.before earlier other middle rfl location needs
  · exact listing.apart other mem (List.mem_cons_of_mem _ found)

/-- Going through the dependencies of a project, when a visit does what it should. -/
theorem outcome_visitAll
    {visit : Dependency → List Dependency → Except DependencyError (List Dependency)}
    (trail : Trail loader system root owner.directory visiting)
    (loaded : load loader system owner.directory = .ok owner)
    (each : ∀ dependency listed, load loader system dependency.location = .ok dependency.manifest →
      Trail loader system root dependency.location (dependency.location :: visiting) →
      Listing loader system root (dependency.location :: visiting) listed →
      Outcome loader system root (dependency.location :: visiting) dependency.manifest
        dependency.manifest.dependencies listed (visit dependency listed)) :
    ∀ {entries : List (Text × Text)}, entries ⊆ owner.dependencies →
      ∀ {listed : List Dependency}, Listing loader system root visiting listed →
        Outcome loader system root visiting owner entries listed
          (visitAll loader system visiting visit owner entries listed) := by
  intro entries
  induction entries with
  | nil =>
    intro _ listed listing
    exact ⟨listing, List.Subset.refl _, fun _ _ mem => absurd mem List.not_mem_nil⟩
  | cons entry entries ih =>
    intro inside listed listing
    obtain ⟨name, path⟩ := entry
    obtain ⟨here, inside⟩ := List.cons_subset.mp inside
    cases result : owner.dependency loader system listed name path with
    | error error =>
      simp only [visitAll, result, bind, Except.bind]
      exact ⟨owner.directory, trail.start, .inl (faulty_of_dependency loaded here result)⟩
    | ok dependency =>
      have found := found_of_dependency result
      have needs : Needs loader system owner.directory dependency.location :=
        ⟨owner, loaded, name, path, here, found.some, found.place.symm⟩
      have meets : ∀ {before : List Dependency} {result : Except DependencyError (List Dependency)},
          listed ⊆ before → dependency.location ∈ before.map Dependency.location →
          Outcome loader system root visiting owner entries before result →
            Outcome loader system root visiting owner ((name, path) :: entries) listed result := by
        intro before result subset there outcome
        cases result with
        | error error => exact outcome
        | ok after =>
          obtain ⟨listing, grown, met⟩ := outcome
          refine ⟨listing, List.Subset.trans subset grown, fun name' path' mem => ?_⟩
          rcases List.mem_cons.mp mem with same | mem
          · obtain ⟨rfl, rfl⟩ := Prod.mk.inj same
            exact ⟨found.some, found.place ▸ found.stat,
              found.place ▸ List.map_subset _ grown there⟩
          · exact met name' path' mem
      simp only [visitAll, result, bind, Except.bind]
      split
      · next known =>
        refine meets (List.Subset.refl _) ?_ (ih inside listing)
        simpa using known
      next unknown =>
        have unknown : dependency.location ∉ listed.map
          Dependency.location := by simpa using unknown
        have whole := found.source.resolve_left fun mem => unknown (List.mem_map_of_mem mem)
        split
        · next seen =>
          exact ⟨dependency.location, trail.start.tail needs,
            .inr (.tail' (trail.leads _ (List.contains_iff_mem.mp seen)) needs)⟩
        next unseen =>
          have fresh : dependency.location ∉ visiting := by simpa using unseen
          have visited := each dependency listed whole (trail.cons needs fresh whole)
            { listing with
              apart := fun other mem found => by
                rcases List.mem_cons.mp found with same | found
                · exact unknown (same ▸ List.mem_map_of_mem mem)
                · exact listing.apart other mem found }
          cases result' : visit dependency listed with
          | error error =>
            rw [result'] at visited
            exact visited
          | ok after =>
            rw [result'] at visited
            obtain ⟨listing', grown, met⟩ := visited
            refine meets (List.Subset.trans grown (List.subset_append_left _ _)) ?_ (ih inside
              (listing'.append fresh whole (.tail' trail.start needs) met))
            simp

/-- There is no room on a trail for more projects than files. -/
theorem Trail.length_le {owner : Location}
    (trail : Trail loader system root owner visiting) : visiting.length ≤ system.nodes.length :=
  length_le_nodes trail.nodup trail.projects

/-- A search with enough depth lists what a project needs, or there is a reason why it cannot. -/
theorem outcome_visit {depth : Nat} : ∀ {visiting : List Location} {location : Location}
    {owner : Manifest} {listed : List Dependency}, system.nodes.length < depth + visiting.length →
    Trail loader system root location visiting → load loader system location = .ok owner →
    Listing loader system root visiting listed →
      Outcome loader system root visiting owner owner.dependencies listed
        (visit loader system depth visiting owner listed) := by
  induction depth with
  | zero =>
    intro visiting location owner listed deep trail
    have short := trail.length_le
    omega
  | succ depth ih =>
    intro visiting location owner listed deep trail loaded listing
    obtain rfl := directory_of_load loaded
    have sorted := outcome_visitAll trail loaded
      (fun dependency listed whole trail listing => ih (by rw [List.length_cons]; omega) trail
        whole listing)
      (fun _ mem => mem_sortedDependencies.mp mem) listing
    rw [visit]
    generalize visitAll loader system visiting _ owner owner.sortedDependencies listed =
      result at sorted ⊢
    cases result with
    | error error => exact sorted
    | ok after =>
      exact ⟨sorted.1, sorted.2.1, fun name path mem =>
        sorted.2.2 name path (mem_sortedDependencies.mpr mem)⟩

/-- Two ways to visit projects that agree about those that are not being visited yet. -/
theorem visitAll_congr
    {visit visit' : Dependency → List Dependency → Except DependencyError (List Dependency)}
    (clean : owner.directory.Clean)
    (same : ∀ dependency listed, load loader system dependency.location = .ok dependency.manifest →
      dependency.location.Clean → dependency.location ∉ visiting →
        visit dependency listed = visit' dependency listed) :
    ∀ (entries : List (Text × Text)) (listed : List Dependency),
      visitAll loader system visiting visit owner entries listed =
        visitAll loader system visiting visit' owner entries listed := by
  intro entries
  induction entries with
  | nil => intro listed; rfl
  | cons entry entries ih =>
    intro listed
    obtain ⟨name, path⟩ := entry
    cases result : owner.dependency loader system listed name path with
    | error error => simp only [visitAll, result, bind, Except.bind]
    | ok dependency =>
      have found := found_of_dependency result
      simp only [visitAll, result, bind, Except.bind]
      split
      · exact ih listed
      next unknown =>
        have unknown : dependency.location ∉ listed.map
          Dependency.location := by simpa using unknown
        have whole := found.source.resolve_left fun mem => unknown (List.mem_map_of_mem mem)
        split
        · rfl
        next unseen =>
          rw [same dependency listed whole (found.place ▸ clean.resolve path)
            (by simpa using unseen)]
          split
          · rfl
          · exact ih _

/-- More depth than there are files changes nothing. -/
theorem visit_stable {depth : Nat} : ∀ {depth' : Nat} {visiting : List Location} {owner : Manifest}
    {listed : List Dependency}, visiting.Nodup →
    (∀ project ∈ visiting, project.Clean ∧ ∃ manifest, load loader system project = .ok manifest) →
    owner.directory.Clean → system.nodes.length < depth + visiting.length →
    system.nodes.length < depth' + visiting.length →
      visit loader system depth visiting owner listed = visit loader system depth' visiting owner
        listed := by
  induction depth with
  | zero =>
    intro depth' visiting owner listed nodup projects clean deep
    have short := length_le_nodes nodup projects
    omega
  | succ depth ih =>
    intro depth' visiting owner listed nodup projects clean deep deep'
    cases depth' with
    | zero =>
      have short := length_le_nodes nodup projects
      omega
    | succ depth' =>
      rw [visit, visit]
      refine visitAll_congr clean (fun dependency listed whole clean fresh => ?_) _ _
      refine ih (nodup.cons fresh) (fun project mem => ?_) (directory_of_load whole ▸ clean)
        (by rw [List.length_cons]; omega) (by rw [List.length_cons]; omega)
      rcases List.mem_cons.mp mem with rfl | mem
      · exact ⟨clean, _, whole⟩
      · exact projects project mem

/-- A path of the graph that starts at a listed project stays in the list and goes backwards. -/
theorem Listing.mem_of_transGen {earlier later : List Dependency}
    (listing : Listing loader system root visiting (earlier ++ dependency :: later))
    (leads : Relation.TransGen (Needs loader system) dependency.location location) :
    location ∈ earlier.map Dependency.location := by
  induction leads with
  | single needs => exact listing.before _ _ _ rfl _ needs
  | tail _ needs ih =>
    obtain ⟨other, mem, rfl⟩ := List.mem_map.mp ih
    obtain ⟨first, second, rfl⟩ := List.append_of_mem mem
    have below := listing.before first other (second ++ dependency :: later) (by simp) _ needs
    rw [List.map_append]
    exact List.mem_append_left _ below

theorem Listing.acyclic
    (listing : Listing loader system root visiting listed)
    (mem : location ∈ listed.map Dependency.location) :
    ¬ Relation.TransGen (Needs loader system) location location := by
  intro cycle
  obtain ⟨dependency, found, rfl⟩ := List.mem_map.mp mem
  obtain ⟨earlier, later, rfl⟩ := List.append_of_mem found
  have again := listing.mem_of_transGen cycle
  have nodup := listing.nodup
  rw [List.map_append, List.map_cons] at nodup
  exact (List.nodup_append.mp nodup).2.2 _ again _ List.mem_cons_self rfl

theorem clean_of_transGen (clean : root.Clean)
    (leads : Relation.TransGen (Needs loader system) root location) : location.Clean := by
  induction leads with
  | single needs => exact needs.clean clean
  | tail _ needs ih => exact needs.clean ih

/-- What was listed for a project is all that can be reached from it. -/
theorem Listing.mem_iff (listing : Listing loader system root [root] listed)
    (met : Met system manifest manifest.dependencies listed) (loaded : load loader system root =
    .ok manifest)
    : location ∈ listed.map Dependency.location ↔
      Relation.TransGen (Needs loader system) root location := by
  constructor
  · intro mem
    obtain ⟨dependency, found, rfl⟩ := List.mem_map.mp mem
    exact listing.reached dependency found
  · intro leads
    induction leads with
    | single needs => exact met.mem_of_needs loaded needs
    | tail _ needs ih =>
      obtain ⟨dependency, mem, rfl⟩ := List.mem_map.mp ih
      obtain ⟨earlier, later, rfl⟩ := List.append_of_mem mem
      rw [List.map_append]
      exact List.mem_append_left _ (listing.before _ _ _ rfl _ needs)

theorem Listing.loadOrder (listing : Listing loader system root [root] listed)
    (met : Met system manifest manifest.dependencies listed) (loaded : load loader system root =
    .ok manifest)
    (clean : root.Clean) : LoadOrder loader system root listed where
  once := by
    have apart := listing.nodup
    rw [List.Nodup, List.pairwise_map] at apart ⊢
    refine apart.imp_of_mem fun {first second} mem member' apart same => apart ?_
    exact Location.path_injective (clean_of_transGen clean (listing.reached first mem))
      (clean_of_transGen clean (listing.reached second member')) same
  reached location := listing.mem_iff met loaded
  loaded := listing.loaded
  before := listing.before
  root inside := by
    obtain ⟨dependency, mem, same⟩ := List.mem_map.mp inside
    exact listing.apart dependency mem (List.mem_singleton.mpr same)

/-- Where a search succeeds there is no reason why it could not. -/
theorem Listing.not_hopeless (listing : Listing loader system root [root] listed)
    (met : Met system manifest manifest.dependencies listed) (loaded : load loader system root =
    .ok manifest) :
    ¬ Hopeless loader system root := by
  rintro ⟨project, leads, wrong⟩
  rcases Relation.reflTransGen_iff_eq_or_transGen.mp leads with rfl | leads
  · rcases wrong with faulty | cycle
    · exact met.sound listing loaded faulty
    · exact listing.acyclic ((listing.mem_iff met loaded).mpr cycle) cycle
  · have mem := (listing.mem_iff met loaded).mpr leads
    rcases wrong with faulty | cycle
    · obtain ⟨dependency, found, rfl⟩ := List.mem_map.mp mem
      exact listing.sound dependency found faulty
    · exact listing.acyclic mem cycle

/-- Resolving the dependencies of a project ends, however many more projects than files it might
visit. It fails exactly when a project that can be reached, which may be the first one, is faulty or
lies on a cycle; otherwise it lists what can be reached in the order in which it has to be loaded.
-/
theorem resolve_spec (clean : root.Clean) (loaded : load loader system root = .ok manifest) :
    (∀ depth, system.nodes.length ≤ depth →
      visit loader system depth [manifest.directory] manifest [] = resolve loader system manifest) ∧
    ((∃ error, resolve loader system manifest = .error error) ↔ Hopeless loader system root) ∧
    ∀ listed, resolve loader system manifest = .ok listed →
      LoadOrder loader system root listed := by
  obtain rfl := directory_of_load loaded
  have trail : Trail loader system manifest.directory manifest.directory [manifest.directory] := by
    refine ⟨List.nodup_singleton _, fun project mem => ?_, List.mem_cons_self, .refl,
      fun project mem => ?_⟩
    all_goals obtain rfl := List.mem_singleton.mp mem
    · exact ⟨clean, manifest, loaded⟩
    · exact .refl
  have listing : Listing loader system manifest.directory [manifest.directory] [] := by
    have none : ∀ {test : Dependency → Prop}, ∀ dependency ∈ ([] : List Dependency),
      test dependency :=
      fun _ mem => absurd mem List.not_mem_nil
    exact ⟨List.nodup_nil, none, none, none, fun _ _ _ split => by simp at split, none⟩
  have outcome : Outcome loader system manifest.directory _ _ _ _ (resolve loader system
    manifest) :=
    outcome_visit (by rw [List.length_singleton]; omega) trail loaded listing
  refine ⟨fun depth deep => ?_, ?_, fun listed result => ?_⟩
  · exact visit_stable trail.nodup trail.projects clean (by rw [List.length_singleton]; omega)
      (by rw [List.length_singleton]; omega)
  · constructor
    · rintro ⟨error, failed⟩
      rw [failed] at outcome
      exact outcome
    · intro hopeless
      cases result : resolve loader system manifest with
      | error error => exact ⟨error, rfl⟩
      | ok listed =>
        rw [result] at outcome
        exact absurd hopeless (outcome.1.not_hopeless outcome.2.2 loaded)
  · rw [result] at outcome
    exact outcome.1.loadOrder outcome.2.2 loaded clean

/-- Four projects: one that needs two others, which both need the fourth, by another name each. -/
def diamond : FileSystem where
  nodes :=
    [(["app"], .directory), (["left"], .directory), (["right"], .directory), (["base"], .directory),
      (["app", "tin.toml"],
        .file "[dependencies]\nl = \x7b path = '/left' \x7d\nr = \x7b path = '../right' \x7d"),
      (["left", "tin.toml"], .file "[dependencies]\nbase = \x7b path = '../base' \x7d"),
      (["right", "tin.toml"], .file "[dependencies]\nold = \x7b path = '../left/../base' \x7d"),
      (["base", "tin.toml"], .file "")]

/-- A loader that knows the texts of their manifests. -/
def reader : Loader where
  read? text := (([("[dependencies]\nl = \x7b path = '/left' \x7d\nr = \x7b path = '../right' \x7d",
      { dependencies := [("l", "/left"), ("r", "../right")] }),
    ("[dependencies]\nbase = \x7b path = '../base' \x7d", { dependencies :=
    [("base", "../base")] }),
    ("[dependencies]\nold = \x7b path = '../left/../base' \x7d",
      { dependencies := [("old", "../left/../base")] }),
    ("", {})] : List (Text × Manifest)).lookup text)
  processors := 2

/-- The manifest of the first of them. -/
def summit : Manifest := (load reader diamond ["app"]).toOption.getD {}

theorem load_diamond : load reader diamond ["app"] = .ok summit := by
  have some : (load reader diamond ["app"]).toOption.isSome = true := by decide
  cases loaded : load reader diamond ["app"] with
  | ok manifest => rw [summit, loaded, Except.toOption, Option.getD_some]
  | error cause =>
    rw [loaded] at some
    contradiction

theorem sortedDependencies_summit : summit.sortedDependencies =
    ([("l", "/left"), ("r", "../right")] : List (Text × Text)) := by
  have listed : summit.dependencies = ([("l", "/left"), ("r", "../right")] :
    List (Text × Text)) := by
    decide
  rw [sortedDependencies, listed]
  exact List.mergeSort_of_pairwise (by decide)

/-- The fourth project is listed once, before the two that need it. -/
theorem resolve_spec_diamond : ∃ listed, resolve reader diamond summit = .ok listed ∧
    listed.map Dependency.location = ([["base"], ["left"], ["right"]] : List Location) ∧
    LoadOrder reader diamond ["app"] listed ∧ ¬ Hopeless reader diamond ["app"] := by
  have whole : (resolve reader diamond summit).toOption.map (List.map Dependency.location) =
      some ([["base"], ["left"], ["right"]] : List Location) := by
    rw [resolve, visit, sortedDependencies_summit]
    decide +kernel
  have clean : Location.Clean ["app"] := fun name mem =>
    List.mem_singleton.mp mem ▸
      ⟨by decide, by decide, by decide, fun _ inside same => absurd (same ▸ inside) (by decide)⟩
  obtain ⟨_, reason, order⟩ := resolve_spec clean load_diamond
  cases resolved : resolve reader diamond summit with
  | error cause =>
    rw [resolved] at whole
    contradiction
  | ok listed =>
    rw [resolved] at whole
    refine ⟨listed, rfl, Option.some.inj whole, order listed resolved, fun hopeless => ?_⟩
    obtain ⟨error, failed⟩ := reason.mpr hopeless
    rw [resolved] at failed
    contradiction

end Manifest

end TinLang
