import MissionGraph.Outline.Groups
import MissionGraph.Proofs.Graph.Lookup
import MissionGraph.Proofs.Script.Words

/-!
# The groups of a graph

Every list of factions that a node holds has a group, unless it is empty. The groups are named by numbers in
the order in which they are found, so no two of them share a name, and their factions are lists that nodes
hold.
-/

namespace MissionGraph

open Mission (Factions listText)
open Script (Group isName isNamePart)

/-! ## Lists of names -/

/-- What stands behind the first name of a list. -/
def laterNames (names : List String) : List Char :=
  match names with
  | [] => []
  | _ => ',' :: ' ' :: (listText names).toList

theorem toList_listText_cons (name : String) (names : List String) :
    (listText (name :: names)).toList = name.toList ++ laterNames names := by
  cases names with
  | nil => simp [listText, laterNames]
  | cons next others =>
      rw [Script.listText_cons_cons, String.toList_append, String.toList_append]
      rfl

theorem not_mem_comma {name : String} (named : isName name = true) : ',' ∉ name.toList := by
  intro member
  unfold isName at named
  split at named
  · rename_i isNil
    rw [isNil] at member
    cases member
  · rename_i first rest isCons
    simp only [Bool.and_eq_true, List.all_eq_true] at named
    rw [isCons] at member
    rcases List.mem_cons.mp member with same | later
    · rw [← same] at named
      exact absurd named.1 (by decide)
    · exact absurd (named.2 ',' later) (by decide)

/-- A name and what stands behind it can be told apart. -/
theorem append_laterNames_inj {first second : String} {others rest : List String} (namedFirst : isName first = true)
    (namedSecond : isName second = true)
    (same : first.toList ++ laterNames others = second.toList ++ laterNames rest) :
    first = second ∧ laterNames others = laterNames rest := by
  have front {name : String} (named : isName name = true) (names : List String) :
      (name.toList ++ laterNames names).takeWhile (· != ',') = name.toList := by
    rw [List.takeWhile_append_of_pos]
    · cases names <;> simp [laterNames]
    · intro c member
      rw [bne_iff_ne]
      rintro rfl
      exact not_mem_comma named member
  have sameName : first.toList = second.toList := by
    rw [← front namedFirst others, same, front namedSecond rest]
  rw [sameName] at same
  exact ⟨String.toList_inj.mp sameName, List.append_cancel_left same⟩

theorem ne_nil_of_isName {name : String} (named : isName name = true) : name.toList ≠ [] := by
  intro isNil
  rw [isName, isNil] at named
  cases named

/-- Lists of names with the same text are the same. -/
theorem listText_injective {first second : List String} (namedFirst : ∀ name ∈ first, isName name = true)
    (namedSecond : ∀ name ∈ second, isName name = true) (same : listText first = listText second) : first = second := by
  induction first generalizing second with
  | nil =>
      cases second with
      | nil => rfl
      | cons name others =>
          have texts := congrArg String.toList same.symm
          rw [toList_listText_cons] at texts
          exact absurd (List.append_eq_nil_iff.mp texts).1 (ne_nil_of_isName (namedSecond name List.mem_cons_self))
  | cons name others ih =>
      cases second with
      | nil =>
          have texts := congrArg String.toList same
          rw [toList_listText_cons] at texts
          exact absurd (List.append_eq_nil_iff.mp texts).1 (ne_nil_of_isName (namedFirst name List.mem_cons_self))
      | cons next rest =>
          have texts := congrArg String.toList same
          rw [toList_listText_cons, toList_listText_cons] at texts
          obtain ⟨rfl, later⟩ := append_laterNames_inj (namedFirst name List.mem_cons_self)
            (namedSecond next List.mem_cons_self) texts
          refine congrArg _ (ih (fun other member => namedFirst other (List.mem_cons_of_mem _ member))
            (fun other member => namedSecond other (List.mem_cons_of_mem _ member)) ?_)
          cases others with
          | nil =>
              cases rest with
              | nil => rfl
              | cons _ _ => cases later
          | cons _ _ =>
              cases rest with
              | nil => cases later
              | cons _ _ =>
                  rw [laterNames, laterNames] at later
                  · exact String.toList_inj.mp (List.cons.inj (List.cons.inj later).2).2
                  · nofun
                  · nofun

namespace Outline

/-! ## Naming -/

/-- The name of the group that is found after the given count of groups. -/
def groupTitle (index : Nat) : String :=
  "group_" ++ Nat.repr index

/-- Names that end with numbers are different if the numbers are. -/
theorem append_repr_injective {title : String} {first second : Nat}
    (same : title ++ Nat.repr first = title ++ Nat.repr second) : first = second := by
  have digits : Number.toDigits first = Number.toDigits second := by
    have lists := congrArg String.toList same
    simpa [Nat.repr, Number.toDigits] using lists
  rw [← Number.ofDigits_toDigits first, digits, Number.ofDigits_toDigits]

/-- What is known of the groups for some lists of factions. -/
structure Naming (groups : List Group) (held : List Factions) : Prop where
  names : groups.map Group.name = (List.range groups.length).map groupTitle
  among : ∀ group ∈ groups, ⟨group.factions⟩ ∈ held ∧ group.factions ≠ []
  complete : ∀ factions ∈ held, factions.isEmpty = false → ∃ group, groupOf? groups factions = some group

theorem naming_nil : Naming [] [] :=
  ⟨rfl, nofun, nofun⟩

/-- Adding the group for one more list. -/
theorem Naming.addGroup {groups : List Group} {held : List Factions} (naming : Naming groups held)
    (factions : Factions) : Naming (addGroup groups factions) (held ++ [factions]) := by
  unfold Outline.addGroup
  split
  · rename_i known
    refine ⟨naming.names, ?_, ?_⟩
    · intro group member
      obtain ⟨isHeld, nonempty⟩ := naming.among group member
      exact ⟨List.mem_append_left _ isHeld, nonempty⟩
    · intro other member nonempty
      rcases List.mem_append.mp member with isHeld | isNew
      · exact naming.complete other isHeld nonempty
      · rw [List.mem_singleton.mp isNew] at nonempty ⊢
        rw [nonempty, Bool.false_or] at known
        exact Option.isSome_iff_exists.mp known
  · rename_i unknown
    simp only [Bool.or_eq_true, not_or, Bool.not_eq_true, Option.isSome_eq_false_iff, Option.isNone_iff_eq_none]
      at unknown
    refine ⟨?_, ?_, ?_⟩
    · rw [List.map_append, naming.names, List.length_append, List.length_singleton, List.range_succ, List.map_append]
      rfl
    · intro group member
      rcases List.mem_append.mp member with isOld | isNew
      · obtain ⟨isHeld, nonempty⟩ := naming.among group isOld
        exact ⟨List.mem_append_left _ isHeld, nonempty⟩
      · rw [List.mem_singleton.mp isNew]
        exact ⟨List.mem_append_right _ List.mem_cons_self, List.isEmpty_eq_false_iff.mp unknown.1⟩
    · intro other member nonempty
      rw [groupOf?, List.find?_append]
      rcases List.mem_append.mp member with isHeld | isNew
      · obtain ⟨group, found⟩ := naming.complete other isHeld nonempty
        rw [groupOf?] at found
        exact ⟨group, by rw [found]; rfl⟩
      · have missing := unknown.2
        rw [groupOf?] at missing
        rw [List.mem_singleton.mp isNew, missing]
        simp

theorem Naming.foldl {groups : List Group} {older held : List Factions} (naming : Naming groups older) :
    Naming (held.foldl Outline.addGroup groups) (older ++ held) := by
  induction held generalizing groups older with
  | nil => rwa [List.append_nil]
  | cons factions others ih =>
      have later := ih (naming.addGroup factions)
      rwa [List.append_assoc, List.singleton_append] at later

/-- A node of the graph holds the factions. -/
def Holds (graph : Graph) (factions : Factions) : Prop :=
  ∃ id node, graph.get? id = some node ∧ factions ∈ factionsOf node

theorem mem_held_iff {graph : Graph} {factions : Factions} :
    factions ∈ (graph.toList.flatMap fun (_, node) => factionsOf node) ↔ Holds graph factions := by
  simp only [List.mem_flatMap, Prod.exists, Graph.mem_toList_iff, Holds]

theorem naming_groups (graph : Graph) :
    Naming (groups graph) (graph.toList.flatMap fun (_, node) => factionsOf node) :=
  naming_nil.foldl

variable {graph : Graph} {factions : Factions}

/-- No two groups share a name. -/
theorem nodup_groups (graph : Graph) : ((groups graph).map Group.name).Nodup := by
  rw [(naming_groups graph).names]
  exact List.Pairwise.map groupTitle (fun _ _ different same => different (append_repr_injective same))
    List.nodup_range

/-- The factions of a group are a list that a node holds. -/
theorem holds_of_mem_groups {group : Group} (member : group ∈ groups graph) :
    Holds graph ⟨group.factions⟩ ∧ group.factions ≠ [] := by
  obtain ⟨isHeld, nonempty⟩ := (naming_groups graph).among group member
  exact ⟨mem_held_iff.mp isHeld, nonempty⟩

/-- Factions that a node holds are named by a group with the same text. -/
theorem exists_group (isHeld : Holds graph factions) (nonempty : factions.isEmpty = false) :
    ∃ group ∈ groups graph, groupName (groups graph) factions = group.name ∧
      listText group.factions = listText factions.names := by
  obtain ⟨group, found⟩ := (naming_groups graph).complete factions (mem_held_iff.mpr isHeld) nonempty
  refine ⟨group, List.mem_of_find?_eq_some found, ?_, ?_⟩
  · rw [groupName, found]
    rfl
  · have same := List.find?_some (show List.find? _ _ = _ from found)
    exact beq_iff_eq.mp same

/-- A name stays a name with a number behind it. -/
theorem isName_append_repr {title : String} (named : isName title = true) (index : Nat) :
    isName (title ++ Nat.repr index) = true := by
  have digits : (Nat.repr index).toList = Number.toDigits index := by
    simp [Nat.repr, Number.toDigits]
  unfold isName at named
  split at named
  · cases named
  · rename_i first rest isCons
    simp only [Bool.and_eq_true, List.all_eq_true] at named
    rw [isName, String.toList_append, isCons, digits, List.cons_append]
    simp only [Bool.and_eq_true, List.all_eq_true]
    refine ⟨named.1, List.forall_mem_append.mpr ⟨named.2, fun c member => ?_⟩⟩
    exact Script.isNamePart_of_isDigit ((Number.digits_toDigits index).2 c member)

theorem isName_of_mem_groups {group : Group} (member : group ∈ groups graph) : isName group.name = true := by
  have listed := List.mem_map_of_mem (f := Group.name) member
  rw [(naming_groups graph).names] at listed
  obtain ⟨index, _, same⟩ := List.mem_map.mp listed
  rw [← same]
  exact isName_append_repr (by decide) index

end Outline

end MissionGraph
