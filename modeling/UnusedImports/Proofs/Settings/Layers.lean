import Mathlib.Data.List.Forall2
import UnusedImports.Settings.Load

/-!
Layers of options. Laying layers over one another is associative and the layer that sets nothing
changes nothing, so it does not matter from which end a list of layers is combined. Each key is
decided by the first layer that sets it, except for the paths to preserve, which add up in order.
The settings of a run are those of its layers, from the command line down to the system, over the
defaults.
-/
namespace UnusedImports

section Occurrences

theorem distinct_filter (test : String → Bool) (names : List String) :
    distinct (names.filter test) = (distinct names).filter test := by
  induction names with
  | nil => rfl
  | cons name rest ih =>
    rw [distinct, List.filter_cons]
    cases htest : test name with
    | true =>
      rw [if_pos rfl, distinct, ih, List.filter_cons, if_pos htest, List.filter_filter,
        List.filter_filter]
      simp only [Bool.and_comm]
    | false =>
      rw [if_neg (by simp), ih, List.filter_cons, if_neg (by simp [htest]), List.filter_filter]
      refine List.filter_congr fun other _ => ?_
      cases hother : test other with
      | false => rfl
      | true =>
        have hne : other ≠ name := by
          rintro rfl
          simp [htest] at hother
        simpa using hne

theorem distinct_eq_eraseDups (names : List String) : distinct names = names.eraseDups := by
  cases names with
  | nil => rfl
  | cons name rest =>
    rw [distinct, List.eraseDups_cons, ← distinct_filter,
      distinct_eq_eraseDups (rest.filter fun other => other != name)]
    rfl
termination_by names.length
decreasing_by exact Nat.lt_succ_of_le (List.length_filter_le _ _)

theorem distinct_of_nodup {names : List String} (h : names.Nodup) : distinct names = names := by
  induction names with
  | nil => rfl
  | cons name rest ih =>
    obtain ⟨hname, hrest⟩ := List.nodup_cons.mp h
    rw [distinct, ih hrest]
    congr 1
    refine List.filter_eq_self.mpr fun other hother => ?_
    have hne : other ≠ name := fun heq => hname (heq ▸ hother)
    simpa using hne

theorem mem_distinct {names : List String} {name : String} :
    name ∈ distinct names ↔ name ∈ names := by
  rw [distinct_eq_eraseDups, List.mem_eraseDups]

theorem distinct_append (first second : List String) :
    distinct (first ++ second) =
      distinct first ++ distinct (second.filter fun name => !first.contains name) := by
  rw [distinct_eq_eraseDups, List.eraseDups_append, ← distinct_eq_eraseDups,
    ← distinct_eq_eraseDups]
  rfl

theorem distinct_append_distinct (first second : List String) :
    distinct (first ++ distinct second) = distinct (first ++ second) := by
  rw [distinct_append, distinct_append first second, distinct_filter, distinct_filter,
    distinct_of_nodup (nodup_distinct second)]

theorem distinct_distinct_append (first second : List String) :
    distinct (distinct first ++ second) = distinct (first ++ second) := by
  have hsame : ∀ name, (distinct first).contains name = first.contains name := by
    intro name
    rw [Bool.eq_iff_iff, List.contains_iff_mem, List.contains_iff_mem, mem_distinct]
  rw [distinct_append, distinct_append first second, distinct_of_nodup (nodup_distinct first)]
  simp only [hsame]

end Occurrences

namespace NameSet

@[ext]
theorem ext {first second : NameSet} (h : first.members = second.members) : first = second := by
  cases first
  cases second
  obtain rfl := h
  rfl

theorem ofList_members (set : NameSet) : ofList set.members = set :=
  ext (distinct_of_nodup set.nodup)

/-- The members of two sets listed one after the other are those of the two lists. -/
theorem union_ofList (first second : List String) :
    (ofList first).union (ofList second) = ofList (first ++ second) := by
  apply ext
  show distinct (distinct first ++ distinct second) = distinct (first ++ second)
  rw [distinct_append_distinct, distinct_distinct_append]

theorem union_assoc (first second third : NameSet) :
    (first.union second).union third = first.union (second.union third) := by
  rw [← ofList_members first, ← ofList_members second, ← ofList_members third]
  simp only [union_ofList, List.append_assoc]

theorem union_empty (set : NameSet) : set.union .empty = set := by
  rw [union, empty, List.append_nil, ofList_members]

/-- To the members of a set come the new ones of another list, in their order. -/
theorem members_union_ofList (set : NameSet) (names : List String) :
    (set.union (ofList names)).members =
      set.members ++ (names.filter fun name => !set.contains name).eraseDups := by
  show distinct (set.members ++ distinct names) = _
  rw [distinct_append_distinct, distinct_append, distinct_of_nodup set.nodup,
    distinct_eq_eraseDups]
  rfl

end NameSet

namespace Options

theorem mergePreserve_none (higher : Option NameSet) : mergePreserve higher none = higher := by
  cases higher <;> rfl

theorem mergePreserve_assoc (first second third : Option NameSet) :
    mergePreserve (mergePreserve first second) third =
      mergePreserve first (mergePreserve second third) := by
  cases first <;> cases second <;> cases third <;>
    simp [mergePreserve, NameSet.union_assoc]

/-- Layers are combined in any grouping. -/
theorem combine_assoc (first second third : Options) :
    (first.combine second).combine third = first.combine (second.combine third) := by
  simp only [combine, mergePreserve_assoc, Option.or_assoc]

theorem unset_combine (options : Options) : unset.combine options = options := by
  cases options
  simp [combine, unset, mergePreserve]

theorem combine_unset (options : Options) : options.combine unset = options := by
  cases options
  simp [combine, unset, mergePreserve_none]

def layered (layers : List Options) : Options := layers.foldr combine unset

theorem layered_append (first second : List Options) :
    layered (first ++ second) = (layered first).combine (layered second) := by
  induction first with
  | nil => exact (unset_combine _).symm
  | cons layer first ih =>
    calc layered (layer :: first ++ second)
      _ = layer.combine (layered (first ++ second)) := rfl
      _ = (layer.combine (layered first)).combine (layered second) := by
          rw [ih, combine_assoc]

/-- Combining from the highest layer down gives the same as from the lowest one up. -/
theorem foldl_combine (higher : Options) (layers : List Options) :
    layers.foldl combine higher = higher.combine (layered layers) := by
  induction layers generalizing higher with
  | nil => exact (combine_unset higher).symm
  | cons layer layers ih =>
    calc (layer :: layers).foldl combine higher
      _ = (higher.combine layer).combine (layered layers) := ih _
      _ = higher.combine (layered (layer :: layers)) := combine_assoc _ _ _

/-- A key that is decided by the first layer that sets it. -/
theorem findSome?_layered {α : Type} (key : Options → Option α) (hunset : key unset = none)
    (hcombine : ∀ higher lower, key (higher.combine lower) = (key higher).or (key lower))
    (layers : List Options) : key (layered layers) = layers.findSome? key := by
  induction layers with
  | nil => exact hunset
  | cons layer layers ih =>
    show key (layer.combine (layered layers)) = _
    rw [hcombine, ih, List.findSome?_cons]
    cases key layer <;> rfl

theorem preserve_layered (layers : List Options) :
    (layered layers).preserve =
      if layers.all (·.preserve.isNone) then none
      else some (.ofList ((layers.filterMap preserve).flatMap NameSet.members)) := by
  induction layers with
  | nil => rfl
  | cons layer layers ih =>
    show mergePreserve layer.preserve (layered layers).preserve = _
    rw [ih]
    cases hlayer : layer.preserve with
    | none => simp [mergePreserve, hlayer]
    | some set =>
      have hsome : ¬ (layer :: layers).all (·.preserve.isNone) = true := by simp [hlayer]
      rw [if_neg hsome, List.filterMap_cons_some hlayer, List.flatMap_cons]
      by_cases hnone : layers.all (·.preserve.isNone) = true
      · have hrest : layers.filterMap preserve = [] := by
          simpa [List.filterMap_eq_nil_iff] using hnone
        rw [if_pos hnone, hrest, List.flatMap_nil, List.append_nil, NameSet.ofList_members]
        rfl
      · rw [if_neg hnone, ← NameSet.union_ofList, NameSet.ofList_members]
        rfl

end Options

namespace Settings

def layer (settings : Settings) : Options :=
  ⟨settings.preserve, settings.keepStaticWildcards, settings.keepAnnotated, settings.extensions⟩

/-- The defaults count like one more layer below all others. -/
theorem layer_ofOptions (options : Options) :
    (ofOptions options).layer = options.combine (ofOptions .unset).layer := by
  obtain ⟨preserve, wildcards, annotated, extensions⟩ := options
  cases preserve <;> cases wildcards <;> cases annotated <;> cases extensions <;>
    simp [layer, ofOptions, Options.combine, Options.unset, Options.mergePreserve,
      NameSet.union_empty]

def Loads (libraries : Libraries) (disk : Disk) (files : List (Layer × Path))
    (layers : List Options) : Prop :=
  List.Forall₂ (fun file layer => loadFile libraries disk file.2 = .ok layer) files layers

section Loading

variable {libraries : Libraries} {disk : Disk}

theorem layFiles_eq_ok_iff {options result : Options} {files : List (Layer × Path)} :
    layFiles libraries disk options files = .ok result ↔
      ∃ layers, Loads libraries disk files layers ∧
        result = (Options.layered layers.reverse).combine options := by
  induction files generalizing options with
  | nil =>
    constructor
    · intro h
      exact ⟨[], .nil, (Except.ok.inj h).symm.trans (Options.unset_combine options).symm⟩
    · rintro ⟨layers, hloads, rfl⟩
      obtain rfl := List.forall₂_nil_left_iff.mp hloads
      exact congrArg Except.ok (Options.unset_combine options).symm
  | cons file files ih =>
    have hlayered : ∀ (first : Options) (layers : List Options),
        (Options.layered (first :: layers).reverse).combine options =
          (Options.layered layers.reverse).combine (first.combine options) := by
      intro first layers
      rw [List.reverse_cons, Options.layered_append, Options.combine_assoc]
      rw [show Options.layered [first] = first from Options.combine_unset first]
    rw [layFiles]
    cases hfile : loadFile libraries disk file.2 with
    | error fault =>
      refine iff_of_false (by simp) ?_
      rintro ⟨layers, hloads, -⟩
      obtain ⟨first, rest, hfirst, -, -⟩ := List.forall₂_cons_left_iff.mp hloads
      simp [hfile] at hfirst
    | ok first =>
      simp only
      rw [ih]
      constructor
      · rintro ⟨layers, hloads, rfl⟩
        exact ⟨first :: layers, .cons hfile hloads, (hlayered first layers).symm⟩
      · rintro ⟨layers, hloads, rfl⟩
        obtain ⟨other, rest, hother, hrest, rfl⟩ := List.forall₂_cons_left_iff.mp hloads
        obtain rfl := Except.ok.inj (hfile.symm.trans hother)
        exact ⟨rest, hrest, hlayered first rest⟩

/-- A run is set up from the file of the command line over the environment over the other
files. -/
theorem load_eq_ok_iff {environment : Environment} {file? : Option Path} {settings : Settings} :
    load libraries disk environment file? = .ok settings ↔
      ∃ lower upper, Loads libraries disk (lowerFiles libraries disk environment) lower ∧
        Loads libraries disk (file?.map (Layer.commandLine, ·)).toList upper ∧
        settings = ofOptions (.layered
          (upper.reverse ++ Options.ofEnvironment environment :: lower.reverse)) := by
  have hjoin : ∀ lower upper : List Options,
      (Options.layered upper.reverse).combine ((Options.ofEnvironment environment).combine
          ((Options.layered lower.reverse).combine .unset)) =
        .layered (upper.reverse ++ Options.ofEnvironment environment :: lower.reverse) := by
    intro lower upper
    rw [Options.combine_unset, Options.layered_append]
    rfl
  unfold load
  constructor
  · intro h
    cases hlower : layFiles libraries disk .unset (lowerFiles libraries disk environment) with
    | error fault => simp [hlower, bind, Except.bind] at h
    | ok options =>
      obtain ⟨lower, hloads, rfl⟩ := layFiles_eq_ok_iff.mp hlower
      simp only [hlower, bind, Except.bind] at h
      split at h
      · simp at h
      · rename_i result hupper
        obtain ⟨upper, hloads', rfl⟩ := layFiles_eq_ok_iff.mp hupper
        rw [hjoin] at h
        exact ⟨lower, upper, hloads, hloads', (Except.ok.inj h).symm⟩
  · rintro ⟨lower, upper, hlower, hupper, rfl⟩
    rw [layFiles_eq_ok_iff.mpr ⟨lower, hlower, rfl⟩]
    simp only [bind, Except.bind]
    rw [layFiles_eq_ok_iff.mpr ⟨upper, hupper, rfl⟩, hjoin]
    rfl

end Loading

end Settings

/-- What layers of options, from the highest to the lowest, come to: the first layer that sets a
key decides it, and the paths to preserve are those of all layers, each where it first stands. -/
structure Options.Decided (layers : List Options) (result : Options) : Prop where
  keepStaticWildcards : result.keepStaticWildcards = layers.findSome? keepStaticWildcards
  keepAnnotated : result.keepAnnotated = layers.findSome? keepAnnotated
  extensions : result.extensions = layers.findSome? extensions
  preserve : result.preserve.map NameSet.members =
    if layers.all (·.preserve.isNone) then none
    else some ((layers.filterMap preserve).flatMap NameSet.members).eraseDups

structure Settings.Fills (settings : Settings) (options : Options) : Prop where
  preserve : settings.preserve = options.preserve.getD (ofOptions .unset).preserve
  keepStaticWildcards :
    settings.keepStaticWildcards =
      options.keepStaticWildcards.getD (ofOptions .unset).keepStaticWildcards
  keepAnnotated :
    settings.keepAnnotated = options.keepAnnotated.getD (ofOptions .unset).keepAnnotated
  extensions : settings.extensions = options.extensions.getD (ofOptions .unset).extensions

/-- Some settings are others with further paths to preserve: the new ones come behind, each
once. -/
structure Settings.Extends (extended settings : Settings) (paths : List String) : Prop where
  members : extended.preserve.members = settings.preserve.members ++
    (paths.filter fun path => !settings.preserve.contains path).eraseDups
  others : { extended with preserve := settings.preserve } = settings

namespace Options

theorem decided_layered (layers : List Options) : Decided layers (layered layers) where
  keepStaticWildcards := findSome?_layered _ rfl (fun _ _ => rfl) layers
  keepAnnotated := findSome?_layered _ rfl (fun _ _ => rfl) layers
  extensions := findSome?_layered _ rfl (fun _ _ => rfl) layers
  preserve := by
    rw [preserve_layered]
    split
    · rfl
    · exact congrArg some (distinct_eq_eraseDups _)

/-- Layers of options form a monoid under `combine`, with the layer that sets nothing as its
identity, so they may be combined from either end. The settings of a run are what its layers decide
from the command line down to the system, with the defaults for what no layer sets, and the paths
to preserve of the command line come behind. -/
theorem decided_layers (layers : List Options) (paths : List String) :
    layers.foldl combine unset = layers.foldr combine unset ∧
      (∀ options, unset.combine options = options ∧ options.combine unset = options) ∧
      (∀ first second third : Options,
        (first.combine second).combine third = first.combine (second.combine third)) ∧
      Decided layers (layers.foldr combine unset) ∧
      (∀ libraries disk environment file? settings,
        Settings.load libraries disk environment file? = .ok settings ↔
          ∃ lower upper,
            Settings.Loads libraries disk (Settings.lowerFiles libraries disk environment) lower ∧
            Settings.Loads libraries disk (file?.map (Layer.commandLine, ·)).toList upper ∧
            settings = Settings.ofOptions
              ((upper.reverse ++ ofEnvironment environment :: lower.reverse).foldr
                combine unset)) ∧
      (∀ options, (Settings.ofOptions options).Fills options ∧
        (Settings.ofOptions options).layer =
          options.combine (Settings.ofOptions unset).layer) ∧
      ∀ settings : Settings, (settings.preserving paths).Extends settings paths := by
  refine ⟨?_, ?_, combine_assoc, decided_layered layers, ?_, ?_, ?_⟩
  · exact (foldl_combine unset layers).trans (unset_combine _)
  · exact fun options => ⟨unset_combine options, combine_unset options⟩
  · intro libraries disk environment file? settings
    exact Settings.load_eq_ok_iff
  · exact fun options => ⟨⟨rfl, rfl, rfl, rfl⟩, Settings.layer_ofOptions options⟩
  · exact fun settings => ⟨settings.preserve.members_union_ofList paths, rfl⟩

end Options

/-- A higher layer comes first, and a path that a lower one names again stays where it is. -/
example : (([⟨some (.ofList ["b", "a"]), none, some false, none⟩,
    ⟨some (.ofList ["a", "c"]), some true, some true, none⟩] : List Options).foldr
      Options.combine .unset).preserve.map NameSet.members = some ["b", "a", "c"] := by
  decide

end UnusedImports
