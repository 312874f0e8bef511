import VowpalWabbit.Interactions.Compile
import VowpalWabbit.Framework.Outcome

/-! # Configurations

    `core/automl_impl.h` and the functions that do not depend on an oracle: a
    configuration is a set of interactions, to be left out or to be used, and
    stands for a list of interactions over the namespaces that were seen.
-/

open Cpp

namespace VW.AutoML

/-- `interaction_vec_t`. -/
abbrev InteractionVec := List (List NamespaceIndex)

/-- `set_ns_list_t`. -/
abbrev SetNsList := OrderedSet namespace_order.lex.toComparator

/-- `std::map<namespace_index, uint64_t>`. -/
abbrev NsCounter := OrderedMap namespace_order.toComparator (BitVec 64)

/-- The namespaces of an example, all that is read of it. -/
abbrev Example := List NamespaceIndex

inductive ConfigState where
  | New
  | Live
  | Inactive
  | Removed
  deriving DecidableEq, Repr

inductive ConfigType where
  | Exclusion
  | Interaction
  deriving DecidableEq, Repr

structure NsBasedConfig where
  elements : SetNsList
  lease : BitVec 64
  state : ConfigState
  conf_type : ConfigType

/-- The values of `_interaction_type`. -/
inductive InteractionType where
  | quadratic
  | cubic
  | both
  deriving DecidableEq, Repr

def CCB_ID_NAMESPACE : NamespaceIndex := 140

/-! ## Namespaces -/

def is_allowed_to_remove (ns : NamespaceIndex) : Bool :=
  !(ns == CCB_SLOT_NAMESPACE || ns == CCB_ID_NAMESPACE)

/-- The sets that an oracle may make: pairs and triples of namespaces that may be left out. -/
def Removable (elements : SetNsList) : Prop :=
  ∀ x ∈ elements.elements, (x.length = 2 ∨ x.length = 3) ∧ x.all is_allowed_to_remove = true

/-- The loop body of `count_namespaces`; the flag is `new_ns_seen`. -/
def count_namespace (counted : Bool × NsCounter) (ns : NamespaceIndex) : Bool × NsCounter :=
  let (new_ns_seen, ns_counter) := counted
  if !is_interaction_ns ns then counted
  -- The namespace of CCB slots is counted, although it is not removed.
  else if ns ≠ CCB_SLOT_NAMESPACE ∧ !is_allowed_to_remove ns then counted
  else
    let count := (ns_counter.find ns).getD 0 + 1
    (new_ns_seen || count == 1, ns_counter.assign ns count)

def count_namespaces (ecs : List Example) (ns_counter : NsCounter) : Bool × NsCounter :=
  ecs.flatten.foldl count_namespace (false, ns_counter)

/-! ## Interactions -/

section Candidates

variable {K T : Type}

/-- `for (it = begin; it != end; ++it)`, where the body reads on from `it`. -/
def for_suffixes (body : K → List K → List T) : List K → List T
  | [] => []
  | k :: ks => body k (k :: ks) ++ for_suffixes body ks

end Candidates

def gen_quadratic_interactions (ns_counter : NsCounter) (exclusions : SetNsList) : InteractionVec :=
  for_suffixes (fun idx1 from1 =>
    (from1.map fun idx2 => [idx1, idx2]).filter fun idx => !exclusions.contains idx) ns_counter.keys

def gen_cubic_interactions (ns_counter : NsCounter) (exclusions : SetNsList) : InteractionVec :=
  for_suffixes (fun idx1 from1 =>
    for_suffixes (fun idx2 from2 =>
      (from2.map fun idx3 => [idx1, idx2, idx3]).filter fun idx => !exclusions.contains idx) from1)
    ns_counter.keys

def UNKNOWN_INTERACTION_TYPE : String := "Unknown interaction type."

/-- What the configuration says, before CCB. -/
def config_interactions (ns_counter : NsCounter) (interaction_type : InteractionType)
    (config : NsBasedConfig) : Outcome InteractionVec :=
  match config.conf_type, interaction_type with
  | .Exclusion, .quadratic => .ok (gen_quadratic_interactions ns_counter config.elements)
  | .Exclusion, .cubic => .ok (gen_cubic_interactions ns_counter config.elements)
  | .Exclusion, .both => Outcome.throw_ UNKNOWN_INTERACTION_TYPE
  | .Interaction, .both =>
    .ok (config.elements.elements ++ gen_quadratic_interactions ns_counter .empty)
  | .Interaction, _ => .ok config.elements.elements

/-- Each interaction again with the namespace of CCB ids, and each namespace with it. -/
def insert_ccb_interactions (ns_counter : NsCounter) (interactions : InteractionVec) : InteractionVec :=
  interactions ++ interactions.map (· ++ [CCB_ID_NAMESPACE]) ++
    ns_counter.keys.map fun ns => [ns, CCB_ID_NAMESPACE]

def sort_interactions (interactions : InteractionVec) : InteractionVec :=
  interactions.insertionSort fun a b => sort_interactions_comparator b a = false

/-- The new value of `interactions`; the old one is not read. -/
def apply_config_to_interactions (ccb_on : Bool) (ns_counter : NsCounter)
    (interaction_type : InteractionType) (config : NsBasedConfig) : Outcome InteractionVec := do
  let interactions ← config_interactions ns_counter interaction_type config
  let interactions := if ccb_on then insert_ccb_interactions ns_counter interactions else interactions
  return sort_interactions interactions

/-! ## Counting -/

/-- Counting a namespace changes the keys only when it says so. -/
theorem count_namespace_keys (counted : Bool × NsCounter) (ns : NamespaceIndex) :
    (counted.1 = true → (count_namespace counted ns).1 = true) ∧
    ((count_namespace counted ns).1 = false → (count_namespace counted ns).2.keys = counted.2.keys) := by
  obtain ⟨new_ns_seen, ns_counter⟩ := counted
  unfold count_namespace
  dsimp only
  split
  · exact ⟨id, fun _ => rfl⟩
  split
  · exact ⟨id, fun _ => rfl⟩
  constructor
  · intro hseen
    rw [hseen, Bool.true_or]
  · intro hnot
    rw [Bool.or_eq_false_iff] at hnot
    -- a namespace without an entry gets the count one
    have hfound : ns ∈ ns_counter.keys := by
      by_contra hnone
      have hfind : ns_counter.find ns = none := by
        unfold OrderedMap.find
        rw [Option.map_eq_none_iff, List.find?_eq_none]
        intro p hp hequiv
        rw [LinearComparator.equivalent_iff] at hequiv
        exact hnone (List.mem_map.mpr ⟨p, hp, hequiv.symm⟩)
      rw [hfind] at hnot
      exact absurd hnot.2 (by decide)
    show (OrderedMap.assign_list _ _ _ ns_counter.entries).map Prod.fst = _
    rw [OrderedMap.keys_assign_list]
    exact LinearComparator.insert_list_of_mem ns_counter.ascending hfound

/-- As long as no new namespace is reported, the same namespaces have been seen. -/
theorem count_namespaces_keys {ecs : List Example} {ns_counter : NsCounter}
    (h : (count_namespaces ecs ns_counter).1 = false) :
    (count_namespaces ecs ns_counter).2.keys = ns_counter.keys := by
  unfold count_namespaces at h ⊢
  have hrun : ∀ (l : List NamespaceIndex) (counted : Bool × NsCounter),
      (l.foldl count_namespace counted).1 = false →
        counted.1 = false ∧ (l.foldl count_namespace counted).2.keys = counted.2.keys := by
    intro l
    induction l with
    | nil => exact fun counted hfalse => ⟨hfalse, rfl⟩
    | cons ns l ih =>
      intro counted hfalse
      obtain ⟨hstep, hkeys⟩ := ih _ hfalse
      obtain ⟨hkeep, hsame⟩ := count_namespace_keys counted ns
      refine ⟨?_, hkeys.trans (hsame hstep)⟩
      cases hseen : counted.1 with
      | false => rfl
      | true =>
        rw [hkeep hseen] at hstep
        cases hstep
  exact (hrun _ _ h).2

/-! ## What the interactions depend on -/

theorem apply_config_to_interactions_congr (ccb_on : Bool) {ns_counter ns_counter' : NsCounter}
    (interaction_type : InteractionType) {config config' : NsBasedConfig}
    (hkeys : ns_counter'.keys = ns_counter.keys) (helements : config'.elements = config.elements)
    (htype : config'.conf_type = config.conf_type) :
    apply_config_to_interactions ccb_on ns_counter' interaction_type config' =
      apply_config_to_interactions ccb_on ns_counter interaction_type config := by
  unfold apply_config_to_interactions config_interactions insert_ccb_interactions
    gen_quadratic_interactions gen_cubic_interactions
  rw [hkeys, helements, htype]

end VW.AutoML
