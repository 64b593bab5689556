import PlacementRules.Proofs.Locality
import PlacementRules.Proofs.RoundTrip

/-!
# The trees that rule text can express

A text stands for a canonical tree, however it is spelled: parentheses around one
operand add no group, and a group that is written has two members or none.  So the
trees that reading can give are those that reading a printed tree gives back.
-/

namespace PlacementRules

namespace Grammar

/-- The phrase stands for canonical trees, wherever it is found in a text. -/
abbrev IsCanonical : Phrase Node := fun _ node _ => node.isCanonical = true

theorem Links.allCanonical {operator : Operator} {text rest : List Char}
    {nodes : List Node} (hlinks : Links operator IsCanonical text nodes rest) :
    Node.allCanonical nodes = true := by
  induction hlinks with
  | nil text => rfl
  | cons _ _ hnode _ ih =>
      rw [Node.allCanonical, Bool.and_eq_true]
      exact ⟨hnode, ih⟩

theorem Chain.isCanonical {operator : Operator} {text rest : List Char} {node : Node}
    (hchain : Chain operator IsCanonical text node rest) : node.isCanonical = true := by
  cases hchain with
  | one hfirst => exact hfirst
  | several hfirst hlinks => exact Node.isCanonical_join operator hfirst hlinks.allCanonical

theorem Operand.isCanonical {text rest : List Char} {node : Node}
    (hoperand : Operand text node rest) : node.isCanonical = true := by
  refine Operand.induction (motive := IsCanonical) ?_ ?_ ?_ hoperand
  · intro text inner rest _ _
    exact Node.isCanonical_empty
  · intro text inner after rest node _ hinner _
    exact Chain.isCanonical (hinner.mono Chain.isCanonical)
  · intro text start middle rest device anchor _ _ _
    rfl

theorem Rule.isCanonical {text rest : List Char} {node : Node}
    (hrule : Rule text node rest) : node.isCanonical = true :=
  Chain.isCanonical (hrule.mono fun hconjunction =>
    Chain.isCanonical (hconjunction.mono Operand.isCanonical))

theorem Derives.isCanonical {text : List Char} {node : Node}
    (hderives : Derives text node) : node.isCanonical = true := by
  obtain ⟨after, hrule, _⟩ := hderives
  exact Rule.isCanonical hrule

end Grammar

namespace Node

theorem isCanonical_of_parse {text : String} {node : Node}
    (hparse : parse text = .ok node) : node.isCanonical = true :=
  (derives_of_parse hparse).isCanonical

/-! ## Canonical at every place -/

/-- The node itself is known, and if it is a group it has two members or is empty. -/
def WellShaped : Node → Prop
  | .clause _ => True
  | .group operator members => 2 ≤ members.length ∨ (operator = .and ∧ members = [])
  | .unknown => False

theorem isCanonical_group_iff (operator : Operator) (members : List Node) :
    (group operator members).isCanonical = true ↔
      (group operator members).WellShaped ∧
        ∀ member ∈ members, member.isCanonical = true := by
  rw [isCanonical, allCanonical_eq_all, Bool.and_eq_true, List.all_eq_true]
  simp [WellShaped, and_comm]

theorem WellShaped.of_isCanonical {node : Node} (hcanonical : node.isCanonical = true) :
    node.WellShaped := by
  cases node with
  | clause leaf => trivial
  | group operator members => exact ((isCanonical_group_iff operator members).mp hcanonical).1
  | unknown => simp [isCanonical] at hcanonical

theorem isCanonical_of_child {node child : Node} {index : Nat}
    (hcanonical : node.isCanonical = true) (hchild : node.children[index]? = some child) :
    child.isCanonical = true := by
  cases node with
  | clause leaf => simp [children] at hchild
  | group operator members =>
      exact ((isCanonical_group_iff operator members).mp hcanonical).2 child
        (List.mem_of_getElem? hchild)
  | unknown => simp [children] at hchild

theorem isCanonical_descend {node part : Node} {path : List Nat}
    (hcanonical : node.isCanonical = true) (hpart : node.descend? path = some part) :
    part.isCanonical = true := by
  induction path generalizing node with
  | nil =>
      obtain rfl : node = part := by simpa using hpart
      exact hcanonical
  | cons index path ih =>
      rw [descend?_cons, Option.bind_eq_some_iff] at hpart
      obtain ⟨child, hchild, hpart⟩ := hpart
      exact ih (isCanonical_of_child hcanonical hchild) hpart

theorem isCanonical_of_descend {node : Node}
    (hshaped : ∀ path part, node.descend? path = some part → part.WellShaped) :
    node.isCanonical = true := by
  have hnode := hshaped [] node (descend?_nil node)
  match node with
  | .clause leaf => rfl
  | .unknown => exact absurd hnode id
  | .group operator members =>
      rw [isCanonical_group_iff]
      refine ⟨hnode, ?_⟩
      intro member hmember
      obtain ⟨index, hindex⟩ := List.getElem?_of_mem hmember
      apply isCanonical_of_descend
      intro path part hpart
      apply hshaped (index :: path) part
      rw [descend?_cons, children, hindex]
      exact hpart

/--
A tree is canonical exactly if no part of it is unknown and each group in it has two
members or more or is the empty `and` group.
-/
theorem isCanonical_iff_descend (node : Node) :
    node.isCanonical = true ↔
      (∀ path, node.descend? path ≠ some .unknown) ∧
      ∀ path operator members, node.descend? path = some (.group operator members) →
        2 ≤ members.length ∨ (operator = .and ∧ members = []) := by
  constructor
  · intro hcanonical
    constructor
    · intro path hpart
      exact WellShaped.of_isCanonical (isCanonical_descend hcanonical hpart)
    · intro path operator members hpart
      exact WellShaped.of_isCanonical (isCanonical_descend hcanonical hpart)
  · intro hparts
    apply isCanonical_of_descend
    intro path part hpart
    cases part with
    | clause leaf => trivial
    | group operator members => exact hparts.2 path operator members hpart
    | unknown => exact hparts.1 path hpart

/--
Rule text expresses just the trees that printing and reading leave as they are.  They
are the trees without unknown parts in which each group has two members or more or is
the empty `and` group.
-/
theorem exists_parse_eq_ok_iff (node : Node) :
    ((∃ text, parse text = .ok node) ↔ parse node.text = .ok node) ∧
    ((∃ text, parse text = .ok node) ↔
      (∀ path, node.descend? path ≠ some .unknown) ∧
      ∀ path operator members, node.descend? path = some (.group operator members) →
        2 ≤ members.length ∨ (operator = .and ∧ members = [])) := by
  obtain ⟨_, _, hcanonical⟩ := parse_text node
  have hprinted : (∃ text, parse text = .ok node) ↔ parse node.text = .ok node := by
    constructor
    · intro hexists
      obtain ⟨text, hparse⟩ := hexists
      exact hcanonical.mpr (isCanonical_of_parse hparse)
    · intro hparse
      exact ⟨node.text, hparse⟩
  refine ⟨hprinted, ?_⟩
  rw [hprinted, hcanonical, isCanonical_iff_descend]

end Node

end PlacementRules
