import VowpalWabbit.Config.Namespaces

/-! # Redefined namespaces

    The part of `parse_feature_tweaks` about `--redefine`. An argument is scanned for the first
    `:=`; the target is set only if the scan comes to a character behind it.
-/

open Cpp Cpp.Outcome

namespace VW.Config

open List

/-- The scan from `i` on. It gives the position of the operator plus 1, and the new namespace. -/
def seek_operator (argument : List Byte) (i operator_pos : Nat) (operator_found : Bool) :
    List Byte → Option (Nat × Byte)
  | [] => if operator_found then some (operator_pos, 32) else none
  | c :: rest =>
    if operator_found then
      -- N is not empty
      some (operator_pos, if i > 2 then argument.headD 0 else 32)
    else if c = 58 then seek_operator argument (i + 1) (i + 1) false rest
    else if c = 61 ∧ operator_pos = i then seek_operator argument (i + 1) operator_pos true rest
    else seek_operator argument (i + 1) operator_pos false rest

/-- All namespaces from S are redefined. -/
def redefine_source (new_namespace : Byte) : List Byte → (Byte → Byte) → Byte → Byte
  | [], redefine => redefine
  | c :: rest, redefine =>
    if c ≠ 58 then redefine_source new_namespace rest (Function.update redefine c new_namespace)
    else fun _ => new_namespace

structure Redefinition where
  redefine : Byte → Byte
  redefine_some : Bool

/-- One pass of the loop over the arguments. -/
def redefine_argument (config : Redefinition) (arg : List Byte) : Outcome Redefinition :=
  let argument := decode_inline_hex arg
  match seek_operator argument 0 0 false argument with
  | none => throw_ "argument of --redefine is malformed. Valid format is N:=S, :=S or N:="
  | some (operator_pos, new_namespace) =>
    let operator_pos := operator_pos + 1
    .ok ⟨if operator_pos = argument.length then Function.update config.redefine 32 new_namespace
      else redefine_source new_namespace (argument.drop operator_pos) config.redefine, true⟩

def redefine_namespaces (redefines : List (List Byte)) : Outcome Redefinition :=
  redefines.foldlM redefine_argument ⟨id, false⟩

/-! ## Substitutions -/

/-- What stands before the first `:=`, and what stands behind it. -/
def operator_split : List Byte → Option (List Byte × List Byte)
  | [] => none
  | c :: rest =>
    if c = 58 ∧ rest.head? = some 61 then some ([], rest.tail)
    else (operator_split rest).map fun (target, source) => (c :: target, source)

/-- The namespaces that a source part covers. -/
def covers (source : List Byte) (c : Byte) : Prop :=
  if source = [] then c = 32 else c ∈ source ∨ (58 : Byte) ∈ source

instance (source : List Byte) : DecidablePred (covers source) := fun c => by
  unfold covers
  infer_instance

/-- The target is the first byte, or the default namespace. -/
def substitute (table : Byte → Byte) (part : List Byte × List Byte) (c : Byte) : Byte :=
  if covers part.2 c then part.1.headD 32 else table c

/-- The target of the last part that covers a byte. -/
def substituted (parts : List (List Byte × List Byte)) (c : Byte) : Byte :=
  match (parts.filter fun part => covers part.2 c).getLast? with
  | some part => part.1.headD 32
  | none => c

/-- The argument does not begin with `=`, and has a source part if it has a target other than
    the default namespace. -/
def Regular (argument : List Byte) : Prop :=
  argument.head? ≠ some 61 ∧ ∀ n target, operator_split argument = some (n :: target, []) → n = 32

variable {source : List Byte}

theorem operator_split_eq {argument target : List Byte}
    (h : operator_split argument = some (target, source)) :
    argument = target ++ 58 :: 61 :: source := by
  induction argument generalizing target with
  | nil => cases h
  | cons c rest ih =>
    rw [operator_split] at h
    split_ifs at h with hc
    · obtain ⟨rfl, hhead⟩ := hc
      obtain ⟨rfl, rfl⟩ := Prod.mk.inj (Option.some.inj h)
      cases rest with
      | nil => cases hhead
      | cons d rest =>
        obtain rfl := Option.some.inj hhead
        rfl
    · obtain ⟨⟨target', source'⟩, hsplit, heq⟩ := Option.map_eq_some_iff.mp h
      obtain ⟨rfl, rfl⟩ := Prod.mk.inj heq
      rw [ih hsplit, cons_append]

/-- The scan finds the first operator, and the target when something follows. -/
theorem seek_operator_eq (argument s : List Byte) : ∀ i operator_pos, operator_pos ≤ i →
    (operator_pos = i → s.head? ≠ some 61) → seek_operator argument i operator_pos false s =
      (operator_split s).map fun (target, source) =>
        (i + target.length + 1, if 0 < i + target.length ∧ source ≠ [] then argument.headD 0 else 32) := by
  induction s with
  | nil =>
    intro i operator_pos _ _
    rfl
  | cons c rest ih =>
    intro i operator_pos hle hhead
    rw [seek_operator, if_neg Bool.false_ne_true, operator_split]
    by_cases hc : c = 58
    · subst hc
      rw [if_pos rfl]
      by_cases hrest : rest.head? = some 61
      · obtain ⟨rest, rfl⟩ : ∃ rest', rest = 61 :: rest' := by
          cases rest with
          | nil => cases hrest
          | cons d rest => exact ⟨rest, by rw [Option.some.inj hrest]⟩
        rw [if_pos ⟨rfl, rfl⟩, seek_operator, if_neg Bool.false_ne_true, if_neg (by decide), if_pos ⟨rfl, rfl⟩]
        cases rest <;> simp [seek_operator]
      · rw [if_neg fun h => hrest h.2, ih _ _ le_rfl fun _ => hrest, Option.map_map]
        congr 1
        funext ⟨target, source⟩
        simp; omega
    · have hequals : ¬ (c = 61 ∧ operator_pos = i) := fun h => hhead h.2 (by rw [h.1]; rfl)
      rw [if_neg hc, if_neg hequals, if_neg fun h => hc h.1, ih _ _ (by omega) (by omega), Option.map_map]
      congr 1
      funext ⟨target, source⟩
      simp; omega

theorem redefine_source_eq (new_namespace : Byte) (hsource : source ≠ []) (redefine : Byte → Byte) :
    redefine_source new_namespace source redefine = fun c =>
      if covers source c then new_namespace else redefine c := by
  suffices h : ∀ redefine : Byte → Byte, redefine_source new_namespace source redefine = fun c =>
      if c ∈ source ∨ (58 : Byte) ∈ source then new_namespace else redefine c by
    simpa only [covers, if_neg hsource] using h redefine
  clear hsource
  induction source with
  | nil =>
    intro redefine
    simp [redefine_source]
  | cons d rest ih =>
    intro redefine
    rw [redefine_source]
    funext c
    by_cases hd : d = 58
    · rw [if_neg (not_not.mpr hd), if_pos (.inr (by rw [hd]; exact mem_cons_self))]
    · rw [if_pos hd, ih]
      have hwildcard : (58 : Byte) ∈ d :: rest ↔ (58 : Byte) ∈ rest := by
        rw [mem_cons, or_iff_right fun h => hd h.symm]
      by_cases hc : c = d
      · subst hc
        simp
      · simp only [Function.update_of_ne hc, hwildcard, mem_cons, hc, false_or]

variable {config : Redefinition}

/-- What one argument does to the table, where `:=` is found in it. -/
theorem redefine_argument_eq {arg target : List Byte}
    (hsplit : operator_split (decode_inline_hex arg) = some (target, source))
    (hhead : (decode_inline_hex arg).head? ≠ some 61) : redefine_argument config arg =
      .ok ⟨substitute config.redefine (if source = [] then [] else target, source), true⟩ := by
  have hargument := operator_split_eq hsplit
  have htarget : (if 0 < 0 + target.length ∧ source ≠ [] then (decode_inline_hex arg).headD 0 else 32) =
      (if source = [] then [] else target).headD 32 := by
    by_cases hsource : source = []
    · simp [hsource]
    · cases target <;> simp [hsource, hargument]
  unfold redefine_argument
  simp only [seek_operator_eq _ _ 0 0 le_rfl fun _ => hhead, hsplit, Option.map_some]
  rw [htarget]
  congr 2
  by_cases hsource : source = []
  · subst hsource
    rw [if_pos (by rw [hargument]; simp)]
    funext c
    simp only [substitute, covers, if_true, Function.update_apply]
  · have hdrop : (decode_inline_hex arg).drop (0 + target.length + 1 + 1) = source := by
      rw [hargument, show target ++ 58 :: 61 :: source = (target ++ [58, 61]) ++ source by simp]
      exact drop_left' (by simp)
    have hlength := length_pos_of_ne_nil hsource
    rw [if_neg (by rw [hargument]; simp; omega), hdrop, redefine_source_eq _ hsource]
    rfl

theorem redefine_argument_throws {arg : List Byte}
    (hsplit : operator_split (decode_inline_hex arg) = none)
    (hhead : (decode_inline_hex arg).head? ≠ some 61) : Throws (redefine_argument config arg) := by
  unfold redefine_argument
  simp only [seek_operator_eq _ _ 0 0 le_rfl fun _ => hhead, hsplit, Option.map_none]
  exact ⟨_, rfl⟩

/-- The argument is replaced in the table as it is documented, or it is refused. -/
def Meets (config : Redefinition) (arg : List Byte) : Prop :=
  match operator_split (decode_inline_hex arg) with
  | some part => redefine_argument config arg = .ok ⟨substitute config.redefine part, true⟩
  | none => Throws (redefine_argument config arg)

/-- An argument that begins with `=` is taken for one that begins with `:=`. -/
theorem redefine_argument_equals {config : Redefinition} {arg rest : List Byte}
    (h : decode_inline_hex arg = 61 :: rest) :
    ∃ table, redefine_argument config arg = .ok ⟨table, true⟩ ∧ ((58 : Byte) ∈ rest → ∀ c, table c = 32) := by
  have hscan : seek_operator (61 :: rest) 0 0 false (61 :: rest) = some (0, 32) := by
    cases rest <;> simp [seek_operator]
  unfold redefine_argument
  simp only [h, hscan]
  refine ⟨_, rfl, fun hwildcard c => ?_⟩
  have hrest := ne_nil_of_mem hwildcard
  have hlength := length_pos_of_ne_nil hrest
  rw [if_neg (by rw [length_cons]; omega), zero_add, List.drop_one, tail_cons,
    redefine_source_eq _ hrest]
  simp only [covers, if_neg hrest, hwildcard, or_true, if_true]

theorem meets_iff (config : Redefinition) (arg : List Byte) :
    Meets config arg ↔ Regular (decode_inline_hex arg) := by
  unfold Meets
  by_cases hhead : (decode_inline_hex arg).head? = some 61
  · refine iff_of_false ?_ fun h => h.1 hhead
    obtain ⟨rest, hargument⟩ := head?_eq_some_iff.mp hhead
    obtain ⟨table, heq, htable⟩ := @redefine_argument_equals config arg rest hargument
    rw [heq]
    cases hsplit : operator_split (decode_inline_hex arg) with
    | none =>
      rintro ⟨what, h⟩
      cases h
    | some part =>
      intro h
      have hsubstitute := congrArg Redefinition.redefine (Except.ok.inj h)
      have hparts := hargument.symm.trans (operator_split_eq hsplit)
      -- the target is the `=`, and what follows has a wildcard
      obtain ⟨target, htarget⟩ : ∃ target, part.1 = 61 :: target := by
        cases hpart : part.1 with
        | nil =>
          rw [hpart] at hparts
          exact absurd (cons.inj hparts).1 (by decide)
        | cons c target => exact ⟨target, by rw [hpart] at hparts; rw [(cons.inj hparts).1]⟩
      have hwildcard : (58 : Byte) ∈ rest := by
        rw [htarget] at hparts
        rw [(cons.inj hparts).2]
        simp
      obtain ⟨c, hc⟩ : ∃ c, covers part.2 c := by
        unfold covers
        split
        · exact ⟨32, rfl⟩
        · next hne => exact ⟨part.2.head hne, .inl (head_mem hne)⟩
      have hvalue : table c = substitute config.redefine part c := congrFun hsubstitute c
      rw [htable hwildcard, substitute, if_pos hc, htarget] at hvalue
      exact absurd hvalue (show ¬ (32 : Byte) = 61 by decide)
  · cases hsplit : operator_split (decode_inline_hex arg) with
    | none =>
      exact iff_of_true (redefine_argument_throws hsplit hhead)
        ⟨hhead, fun n target h => by rw [hsplit] at h; cases h⟩
    | some part =>
      obtain ⟨target, source⟩ := part
      simp only [redefine_argument_eq hsplit hhead, Regular, hsplit, ne_eq, hhead, not_false_eq_true, true_and]
      constructor
      · intro h n target' heq
        obtain ⟨rfl, rfl⟩ := Prod.mk.inj (Option.some.inj heq)
        have hvalue := congrFun (congrArg Redefinition.redefine (Except.ok.inj h)) 32
        simpa [substitute, covers] using hvalue.symm
      · intro h
        by_cases hsource : source = []
        · subst hsource
          cases target with
          | nil => rfl
          | cons n target => rw [h n target rfl]; rfl
        · rw [if_neg hsource]

/-- The last covering part decides. -/
theorem foldl_substitute (parts : List (List Byte × List Byte)) : parts.foldl substitute id = substituted parts := by
  induction parts using reverseRecOn with
  | nil => rfl
  | append_singleton parts part ih =>
    funext c
    rw [foldl_append, ih, foldl_cons, foldl_nil, substitute]
    conv_rhs => rw [substituted, filter_append]
    by_cases hc : covers part.2 c
    · simp [hc]
    · simp [hc, substituted]

variable {redefines : List (List Byte)}

theorem redefine_run {parts : List (List Byte × List Byte)}
    (hparts : List.Forall₂ (fun arg part => operator_split (decode_inline_hex arg) = some part) redefines parts)
    (h : ∀ arg ∈ redefines, Regular (decode_inline_hex arg)) : ∀ config : Redefinition,
    redefines.foldlM redefine_argument config =
      .ok ⟨parts.foldl substitute config.redefine, config.redefine_some || redefines ≠ []⟩ := by
  induction hparts with
  | nil =>
    intro config
    simp
  | @cons arg part redefines parts hsplit _ ih =>
    intro config
    have hmeets := (meets_iff config arg).mpr (h arg mem_cons_self)
    unfold Meets at hmeets
    simp only [hsplit] at hmeets
    rw [foldlM_cons, hmeets, ok_bind, ih fun arg harg => h arg (mem_cons_of_mem _ harg)]
    simp

theorem redefine_run_throws (h : ∀ arg ∈ redefines, Regular (decode_inline_hex arg))
    (hmalformed : ∃ arg ∈ redefines, operator_split (decode_inline_hex arg) = none) :
    ∀ config : Redefinition,
    Throws (redefines.foldlM redefine_argument config) := by
  induction redefines with
  | nil => simp at hmalformed
  | cons arg redefines ih =>
    intro config
    have hmeets := (meets_iff config arg).mpr (h arg mem_cons_self)
    unfold Meets at hmeets
    rw [foldlM_cons]
    cases hsplit : operator_split (decode_inline_hex arg) with
    | none =>
      simp only [hsplit] at hmeets
      exact hmeets.bind _
    | some part =>
      simp only [hsplit] at hmeets
      rw [hmeets, ok_bind]
      refine ih (fun arg harg => h arg (mem_cons_of_mem _ harg)) ?_ _
      obtain ⟨arg', harg', hnone⟩ := hmalformed
      rcases mem_cons.mp harg' with rfl | harg'
      · rw [hsplit] at hnone
        cases hnone
      · exact ⟨arg', harg', hnone⟩

/-- Regular arguments are substituted one after the other, or refused; of any others each one is not. -/
theorem redefine_sequential_iff (redefines : List (List Byte)) :
    ((∀ arg ∈ redefines, Regular (decode_inline_hex arg)) →
      (∀ parts, List.Forall₂ (fun arg part => operator_split (decode_inline_hex arg) = some part) redefines parts →
        redefine_namespaces redefines = .ok ⟨substituted parts, redefines ≠ []⟩) ∧
      ((∃ arg ∈ redefines, operator_split (decode_inline_hex arg) = none) →
        Throws (redefine_namespaces redefines))) ∧
    ∀ config arg, Meets config arg ↔ Regular (decode_inline_hex arg) := by
  refine ⟨fun h => ⟨fun parts hparts => ?_, fun hmalformed => redefine_run_throws h hmalformed _⟩, meets_iff⟩
  rw [redefine_namespaces, redefine_run hparts h, foldl_substitute, Bool.false_or]

/-- The default namespace, and two others. -/
theorem redefine_sequential_default : redefine_namespaces [text ":=L", text "ab:=M"] =
    .ok ⟨substituted [([], text "L"), (text "ab", text "M")], true⟩ := by
  have hfirst : operator_split (decode_inline_hex (text ":=L")) = some ([], text "L") := by decide
  have hsecond : operator_split (decode_inline_hex (text "ab:=M")) = some (text "ab", text "M") := by decide
  refine ((redefine_sequential_iff [text ":=L", text "ab:=M"]).1 fun arg harg => ?_).1 _
    (.cons hfirst (.cons hsecond .nil))
  rcases mem_pair.mp harg with rfl | rfl
  · exact ⟨by decide, fun n target h => absurd (hfirst.symm.trans h) (by simp)⟩
  · exact ⟨by decide, fun n target h => absurd (hsecond.symm.trans h) (by simp [text])⟩

/-- `a:=` leaves the default namespace where it is, and `=b` is no error. -/
theorem not_redefine_sequential : redefine_namespaces [text "a:="] ≠ .ok ⟨substituted [(text "a", [])], true⟩ ∧
    ¬ Throws (redefine_namespaces [text "=b"]) := by
  constructor
  · intro h
    have hdefault := congrArg (fun r => r.toOption.map fun config => config.redefine 32) h
    exact absurd hdefault (by decide)
  · rintro ⟨what, h⟩
    cases h

end VW.Config
