import Mathlib.Data.List.Infix
import Mathlib.Data.List.MinMax
import Mathlib.Order.Nat
import PlacementRules.Proofs.Parentheses
import PlacementRules.Proofs.Refusal

/-!
# How deep the parentheses of a text take its tree

A rule is a disjunction of conjunctions, so it can be two groups, one within the other,
before the first parenthesis, and two more within each pair of parentheses.  How deep
the parentheses of a text nest therefore bounds the depth of the tree that is read from
it, and there is a text for each nesting that reaches the bound.
-/

namespace PlacementRules

/-! ## How deep parentheses nest -/

/-- The greatest number of parentheses that are open at one place of the text. -/
def nesting (text : List Char) : Nat :=
  ((parentheses text).inits.map fun marks =>
    marks.count '(' - marks.count ')').foldr max 0

/-- Nowhere among the parentheses are more than `bound` of them open. -/
def OpensWithin (bound : Nat) (marks : List Char) : Prop :=
  ∀ start, start <+: marks → start.count '(' ≤ start.count ')' + bound

theorem nesting_le_iff {text : List Char} {bound : Nat} :
    nesting text ≤ bound ↔ OpensWithin bound (parentheses text) := by
  constructor
  · intro hle start hstart
    have hopen : start.count '(' - start.count ')' ≤ nesting text :=
      List.le_max_of_le
        (List.mem_map_of_mem ((List.mem_inits start _).mpr hstart)) (Nat.le_refl _)
    omega
  · intro hwithin
    apply List.max_le_of_forall_le
    intro count hcount
    obtain ⟨start, hstart, rfl⟩ := List.mem_map.mp hcount
    have hopen := hwithin start ((List.mem_inits start _).mp hstart)
    omega

theorem nesting_le_count (text : List Char) :
    nesting text ≤ (parentheses text).count '(' := by
  rw [nesting_le_iff]
  intro start hstart
  have hcount := hstart.sublist.count_le '('
  omega

namespace OpensWithin

variable {bound : Nat} {first more marks : List Char}

theorem left (hwithin : OpensWithin bound (first ++ more)) : OpensWithin bound first := by
  intro start hstart
  exact hwithin start (hstart.trans (List.prefix_append first more))

/-- What has been closed again does not count further on. -/
theorem right (hwithin : OpensWithin bound (first ++ more))
    (hclosed : first.count '(' = first.count ')') : OpensWithin bound more := by
  intro start hstart
  have hopen := hwithin (first ++ start) ((List.prefix_append_right_inj first).mpr hstart)
  rw [List.count_append, List.count_append] at hopen
  omega

theorem inside (hwithin : OpensWithin bound ('(' :: (marks ++ [')']))) :
    ∃ inner, bound = inner + 1 ∧ OpensWithin inner marks := by
  have hopen : ∀ start, start <+: marks → start.count '(' + 1 ≤ start.count ')' + bound := by
    intro start hstart
    have hlonger := hstart.trans (List.prefix_append marks [')'])
    simpa using hwithin ('(' :: start) (List.cons_prefix_cons.mpr ⟨rfl, hlonger⟩)
  have hfirst := hopen [] List.nil_prefix
  rw [List.count_nil, List.count_nil] at hfirst
  refine ⟨bound - 1, by omega, ?_⟩
  intro start hstart
  have hstart' := hopen start hstart
  omega

end OpensWithin

namespace Grammar

/-! ## What parentheses allow -/

/--
The part of the text before `rest` closes as many parentheses as it opens, and its value
fits every bound on how many of them are open.
-/
def Nested {α : Type} (fits : Nat → α → Prop) : Phrase α := fun text value rest =>
  ∃ marks, parentheses text = marks ++ parentheses rest ∧
    marks.count '(' = marks.count ')' ∧ ∀ bound, OpensWithin bound marks → fits bound value

section

variable {α β γ : Type} {fits : Nat → α → Prop} {others : Nat → β → Prop}
  {both : Nat → γ → Prop} {text start after rest : List Char} {value : α} {other : β}

theorem Nested.nothing (hfits : ∀ bound, fits bound value) (text : List Char) :
    Nested fits text value text :=
  ⟨[], rfl, rfl, fun bound _ => hfits bound⟩

theorem Nested.of_parentheses_eq (hnested : Nested fits start value rest)
    (hmarks : parentheses text = parentheses start) : Nested fits text value rest := by
  obtain ⟨marks, hstart, hcount, hfits⟩ := hnested
  exact ⟨marks, hmarks.trans hstart, hcount, hfits⟩

theorem Nested.mono (hnested : Nested fits text value rest)
    (hfits : ∀ bound, fits bound value → others bound other) :
    Nested others text other rest := by
  obtain ⟨marks, hmarks, hcount, hvalue⟩ := hnested
  exact ⟨marks, hmarks, hcount, fun bound hwithin => hfits bound (hvalue bound hwithin)⟩

/-- Two parts one after the other are subject to the same bound. -/
theorem Nested.append {whole : γ} (hfirst : Nested fits text value after)
    (hmore : Nested others after other rest)
    (hboth : ∀ bound, fits bound value → others bound other → both bound whole) :
    Nested both text whole rest := by
  obtain ⟨first, hfirstMarks, hfirstCount, hfirst⟩ := hfirst
  obtain ⟨more, hmoreMarks, hmoreCount, hmore⟩ := hmore
  refine ⟨first ++ more, ?_, ?_, ?_⟩
  · rw [hfirstMarks, hmoreMarks, List.append_assoc]
  · rw [List.count_append, List.count_append, hfirstCount, hmoreCount]
  · intro bound hwithin
    exact hboth bound (hfirst bound hwithin.left)
      (hmore bound (hwithin.right hfirstCount))

/-- Of what parentheses around a part allow, the part itself has one pair less. -/
theorem Nested.parenthesized {inner : List Char} (hinner : Nested fits inner value after)
    (hopen : Blanks text ('(' :: inner)) (hclose : Blanks after (')' :: rest))
    (hpair : ∀ bound, fits bound value → others (bound + 1) other) :
    Nested others text other rest := by
  obtain ⟨marks, hmarks, hcount, hfits⟩ := hinner
  refine ⟨'(' :: (marks ++ [')']), ?_, ?_, ?_⟩
  · rw [hopen.parentheses_eq, parentheses_open, hmarks, hclose.parentheses_eq,
      parentheses_close]
    simp
  · simp [hcount]
  · intro bound hwithin
    obtain ⟨inside, rfl, hinside⟩ := hwithin.inside
    exact hpair inside (hfits inside hinside)

end

/--
With one group above it, the tree reaches no deeper than two levels for each pair of
parentheses and `levels` more.
-/
def FitsLevels (levels bound : Nat) (node : Node) : Prop :=
  node.FitsWithin (2 * bound + levels) 1

section

variable {operator : Operator} {levels : Nat} {text rest : List Char}

theorem Links.nested {nodes : List Node}
    (hlinks : Links operator (Nested (FitsLevels levels)) text nodes rest) :
    Nested (fun bound nodes => ∀ node ∈ nodes, FitsLevels levels bound node)
      text nodes rest := by
  induction hlinks with
  | nil text => exact .nothing (by simp) text
  | cons hblanks hkeyword hnode _ ih =>
      refine Nested.of_parentheses_eq ?_
        (hblanks.parentheses_eq.trans hkeyword.parentheses_eq)
      exact hnode.append ih fun bound hfirst hmore =>
        List.forall_mem_cons.mpr ⟨hfirst, hmore⟩

/-- A chain of several parts puts one group around them, a single part stays as it is. -/
theorem Chain.nested {node : Node}
    (hchain : Chain operator (Nested (FitsLevels levels)) text node rest) :
    Nested (FitsLevels (levels + 1)) text node rest := by
  cases hchain with
  | one hfirst => exact hfirst.mono fun bound hfits => hfits.mono (by omega)
  | several hfirst hlinks =>
      refine hfirst.append hlinks.nested ?_
      intro bound hfirst hmore
      have hall := List.forall_mem_cons.mpr ⟨hfirst, hmore⟩
      refine Node.fitsWithin_group.mpr ⟨by omega, ?_⟩
      intro member hmember
      exact (hall member hmember).mono (by omega)

theorem Operand.nested {node : Node} (hoperand : Operand text node rest) :
    Nested (FitsLevels 0) text node rest := by
  refine Operand.induction (motive := Nested (FitsLevels 0)) ?_ ?_ ?_ hoperand
  · intro text inner rest hopen hclose
    have hnothing : Nested (fun _ _ => True) inner () inner := .nothing (by simp) inner
    refine hnothing.parenthesized hopen hclose ?_
    intro bound _
    exact Node.fitsWithin_group.mpr ⟨by omega, by simp⟩
  · intro text inner after rest node hopen hinner hclose
    have hrule := Chain.nested (hinner.mono Chain.nested)
    -- the two levels of the rule inside are those that the parentheses account for
    refine hrule.parenthesized hopen hclose ?_
    intro bound hfits
    exact hfits.mono (by omega)
  · intro text start middle rest device anchor hblanks hdevice hanchor
    have hnone : parentheses text = parentheses rest := by
      rw [hblanks.parentheses_eq, hdevice.parentheses_eq, parentheses_at,
        hanchor.parentheses_eq]
    refine Nested.of_parentheses_eq (.nothing ?_ rest) hnone
    intro bound
    exact Node.fitsWithin_of_not_isGroup _ 1 rfl

theorem Rule.nested {node : Node} (hrule : Rule text node rest) :
    Nested (FitsLevels 2) text node rest :=
  Chain.nested (hrule.mono fun hconjunction =>
    Chain.nested (hconjunction.mono Operand.nested))

theorem Derives.fitsWithin {node : Node} (hderives : Derives text node) {bound : Nat}
    (hnesting : nesting text ≤ bound) : node.FitsWithin (2 * bound + 1) 0 := by
  obtain ⟨after, hrule, hend⟩ := hderives
  obtain ⟨marks, hmarks, -, hfits⟩ := hrule.nested
  have hnone : parentheses after = [] := hend.parentheses_eq
  rw [hnone, List.append_nil] at hmarks
  rw [nesting_le_iff, hmarks] at hnesting
  exact (hfits bound hnesting).mono (by omega)

end

/-! ## Texts that reach the bound -/

theorem parentheses_separator (operator : Operator) (rest : List Char) :
    parentheses (operator.separator ++ rest) = parentheses rest := by
  cases operator <;> rfl

theorem delimited_separator (operator : Operator) (rest : List Char) :
    Delimited (operator.separator ++ rest) :=
  delimited_space _

theorem parentheses_clause (leaf : Clause) {rest : List Char} (hrest : Delimited rest) :
    parentheses (leaf.chars ++ rest) = parentheses rest := by
  have hdevice := Name.isName_write leaf.device
    (delimited_at (Name.write leaf.anchor.toList ++ rest))
  have hanchor := Name.isName_write leaf.anchor hrest
  have hparts := hdevice.parentheses_eq
  rw [parentheses_at, hanchor.parentheses_eq] at hparts
  simpa [Clause.chars] using hparts

theorem chain_pair {operator : Operator} {part : Phrase Node} (hpart : AllowsBlanks part)
    {text start rest : List Char} {first second : Node}
    (hfirst : part text first (operator.separator ++ start))
    (hsecond : part start second rest) :
    Chain operator part text (.group operator [first, second]) rest := by
  have hspaced := hpart _ _ _ _ (Node.blanks_space start) hsecond
  have hkeyword := keyword_keyword operator (delimited_space start)
  have hlinks := Links.cons (Node.blanks_space _) hkeyword hspaced (.nil rest)
  refine .several hfirst ?_
  simpa [Operator.separator] using hlinks

end Grammar

namespace Node

open Grammar

/-- A disjunction with a conjunction in it, and the given tree at the end of that. -/
def twoLevels (leaf : Clause) (node : Node) : Node :=
  .group .or [.clause leaf, .group .and [.clause leaf, node]]

def twoLevelsChars (leaf : Clause) (start : List Char) : List Char :=
  leaf.chars ++ (Operator.or.separator ++
    (leaf.chars ++ (Operator.and.separator ++ start)))

/-- A tree with two levels for each of `pairs` pairs of parentheses and two around all. -/
def staircase (leaf : Clause) : (pairs : Nat) → Node
  | 0 => twoLevels leaf (.clause leaf)
  | pairs + 1 => twoLevels leaf (staircase leaf pairs)

/-- A text of such a tree that has no more parentheses than it needs, and what follows. -/
def staircaseChars (leaf : Clause) : (pairs : Nat) → List Char → List Char
  | 0, rest => twoLevelsChars leaf (leaf.chars ++ rest)
  | pairs + 1, rest => twoLevelsChars leaf ('(' :: staircaseChars leaf pairs (')' :: rest))

theorem HasGroupAt.twoLevels {depth : Nat} {node : Node} (hgroup : node.HasGroupAt depth)
    (leaf : Clause) : (twoLevels leaf node).HasGroupAt (depth + 2) := by
  have hconjunction : (group .and [.clause leaf, node]).HasGroupAt (depth + 1) :=
    .member .and (by simp) hgroup
  exact .member .or (by simp) hconjunction

theorem hasGroupAt_staircase (leaf : Clause) (pairs : Nat) :
    (staircase leaf pairs).HasGroupAt (2 * pairs + 1) := by
  induction pairs with
  | zero => exact .member .or (by simp) (.root .and [.clause leaf, .clause leaf])
  | succ pairs ih => exact ih.twoLevels leaf

theorem operand_clause (leaf : Clause) {rest : List Char} (hrest : Delimited rest) :
    Operand (leaf.chars ++ rest) (.clause leaf) rest := by
  have hknown : (clause leaf).isKnown = true := rfl
  exact operand_chars hknown hrest

theorem rule_twoLevels (leaf : Clause) {start rest : List Char} {node : Node}
    (hlast : Operand start node rest) :
    Rule (twoLevelsChars leaf start) (twoLevels leaf node) rest := by
  have hconjunction := chain_pair Operand.allowsBlanks
    (operand_clause leaf (delimited_separator .and start)) hlast
  exact chain_pair (Chain.allowsBlanks Operand.allowsBlanks)
    (.one (operand_clause leaf (delimited_separator .or _))) hconjunction

theorem rule_staircase (leaf : Clause) (pairs : Nat) {rest : List Char}
    (hrest : Delimited rest) :
    Rule (staircaseChars leaf pairs rest) (staircase leaf pairs) rest := by
  induction pairs generalizing rest with
  | zero => exact rule_twoLevels leaf (operand_clause leaf hrest)
  | succ pairs ih =>
      have hinner := ih (delimited_closeParen rest)
      exact rule_twoLevels leaf (.parenthesized (.none _) hinner (.none _))

theorem parentheses_twoLevels (leaf : Clause) (start : List Char) :
    parentheses (twoLevelsChars leaf start) = parentheses start := by
  rw [twoLevelsChars, parentheses_clause leaf (delimited_separator .or _),
    parentheses_separator, parentheses_clause leaf (delimited_separator .and start),
    parentheses_separator]

theorem count_parentheses_staircase (leaf : Clause) (pairs : Nat) {rest : List Char}
    (hrest : Delimited rest) :
    (parentheses (staircaseChars leaf pairs rest)).count '(' =
      pairs + (parentheses rest).count '(' := by
  induction pairs generalizing rest with
  | zero =>
      rw [staircaseChars, parentheses_twoLevels, parentheses_clause leaf hrest, Nat.zero_add]
  | succ pairs ih =>
      rw [staircaseChars, parentheses_twoLevels, parentheses_open, List.count_cons_self,
        ih (delimited_closeParen rest), parentheses_close, List.count_cons_of_ne (by decide)]
      omega

def staircaseText (leaf : Clause) (pairs : Nat) : String :=
  String.ofList (staircaseChars leaf pairs [])

theorem parse_staircaseText (leaf : Clause) (pairs : Nat) :
    parse (staircaseText leaf pairs) = .ok (staircase leaf pairs) := by
  apply parse_of_derives
  rw [staircaseText, String.toList_ofList]
  exact ⟨[], rule_staircase leaf pairs delimited_nil, .none []⟩

/-- With fewer parentheses within one another the tree could not be as deep as it is. -/
theorem nesting_staircaseText (leaf : Clause) (pairs : Nat) :
    nesting (staircaseText leaf pairs).toList = pairs := by
  apply Nat.le_antisymm
  · rw [staircaseText, String.toList_ofList]
    have hcount := nesting_le_count (staircaseChars leaf pairs [])
    rwa [count_parentheses_staircase leaf pairs delimited_nil] at hcount
  · have hderives := derives_of_parse (parse_staircaseText leaf pairs)
    have hdeepest := hderives.fitsWithin (Nat.le_refl _) _ (hasGroupAt_staircase leaf pairs)
    omega

end Node

/-! ## Reading and evaluating -/

theorem Node.fitsWithin_of_parse {text : String} {node : Node}
    (hparse : parse text = .ok node) {bound : Nat} (hnesting : nesting text.toList ≤ bound) :
    node.FitsWithin (2 * bound + 1) 0 :=
  (derives_of_parse hparse).fitsWithin hnesting

theorem nesting_eq_zero {text : List Char} (hnone : parentheses text = []) :
    nesting text = 0 := by
  rw [nesting, hnone]
  rfl

/-- The tree of the check, if it has one, is read from a text without parentheses. -/
def Check.WithoutParentheses (check : Check) : Prop :=
  ∀ root, check.expression = some (.tree root) →
    ∃ text, Node.parse text = .ok root ∧ parentheses text.toList = []

theorem Check.WithoutParentheses.not_nestsBeyond {check : Check}
    (hflat : check.WithoutParentheses) {limit : Nat} (hlimit : 1 ≤ limit) :
    ¬ check.NestsBeyond limit := by
  rw [not_nestsBeyond_iff]
  intro root hroot
  obtain ⟨text, hparse, hnone⟩ := hflat root hroot
  have hfits := Node.fitsWithin_of_parse hparse (Nat.le_of_eq (nesting_eq_zero hnone))
  exact hfits.mono (by omega)

theorem Check.withoutParentheses_withTree {text : String} {node : Node}
    (hparse : Node.parse text = .ok node) (hnone : parentheses text.toList = [])
    (check : Check) : (check.withTree node).WithoutParentheses := by
  intro root hroot
  obtain rfl : node = root := by simpa [withTree] using hroot
  exact ⟨text, hparse, hnone⟩

/--
A tree that is read from a text in which at most `bound` parentheses are open at once has
no group with more than `2 * bound + 1` groups above it, and for each `bound` there is a
text whose tree has a group with just as many.  So rules without parentheses are not
refused under the default limit, and neither their outcome nor the verdict of a check
depends on the limit, as long as it is not zero.
-/
theorem Node.nesting_bounds_depth :
    (∀ bound text node, parse text = .ok node → nesting text.toList ≤ bound →
      node.overflow (2 * bound + 1) = []) ∧
    (∀ bound, ∃ text node, parse text = .ok node ∧ nesting text.toList = bound ∧
      node.HasGroupAt (2 * bound + 1)) ∧
    (∀ (rules : Rules), (∀ check ∈ rules.checks, check.WithoutParentheses) →
      ∀ placements connected, ∃ outcome,
        rules.evaluateValidated defaultMaxDepth placements connected = .ok outcome ∧
        ∀ limit, 1 ≤ limit →
          rules.evaluateValidated limit placements connected = .ok outcome ∧
          (CompiledRules.ofRules limit rules).evaluate placements connected = outcome) ∧
    (∀ text node, parse text = .ok node → parentheses text.toList = [] →
      ∀ (check : Check) placements limit, 1 ≤ limit →
        (Condition.ofCheck limit (check.withTree node)).holds placements =
          (check.withTree node).resolve placements) := by
  refine ⟨?_, ?_, ?_, ?_⟩
  · intro bound text node hparse hnesting
    exact overflowFrom_eq_nil_iff.mpr (fitsWithin_of_parse hparse hnesting)
  · intro bound
    let leaf : Clause := ⟨"lamp", "desk"⟩
    exact ⟨staircaseText leaf bound, staircase leaf bound, parse_staircaseText leaf bound,
      nesting_staircaseText leaf bound, hasGroupAt_staircase leaf bound⟩
  · intro rules hflat placements connected
    have hgiven (limit : Nat) (hlimit : 1 ≤ limit) :
        (CompiledRules.ofRules limit rules).evaluate placements connected =
            rules.evaluateUnlimited placements connected ∧
          rules.evaluateValidated limit placements connected =
            .ok (rules.evaluateUnlimited placements connected) := by
      have hfits : ∀ check ∈ rules.checks, ¬ check.NestsBeyond limit :=
        fun check hcheck => (hflat check hcheck).not_nestsBeyond hlimit
      have hfull := Rules.evaluate_eq_evaluateUnlimited placements connected hfits
      exact ⟨hfull, Rules.evaluateValidated_eq_ok_iff.mpr ⟨hfull.symm, hfits⟩⟩
    refine ⟨rules.evaluateUnlimited placements connected, ?_, ?_⟩
    · exact (hgiven defaultMaxDepth (Nat.le_refl 1)).2
    · intro limit hlimit
      exact (hgiven limit hlimit).symm
  · intro text node hparse hnone check placements limit hlimit
    have hflat := Check.withoutParentheses_withTree hparse hnone check
    have hfits := hflat.not_nestsBeyond hlimit
    have hdefault : ¬ (check.withTree node).NestsBeyond defaultMaxDepth :=
      hflat.not_nestsBeyond (Nat.le_refl 1)
    rw [Check.resolve, Condition.holds_ofCheck, Condition.holds_ofCheck,
      Check.holds_of_not_nestsBeyond placements hfits,
      Check.holds_of_not_nestsBeyond placements hdefault]

/-- Parentheses within one another, some of them in quotes and comments. -/
theorem Node.nesting_bounds_depth_of_mixed_text :
    let nested := "(\"(\"@x # ((\nAND (b@y OR ())) OR \"a)\"@z"
    let flat := "\"(\"@x # )\nOR b@y AND c@z"
    let tree := group .or [clause ⟨"(", "x"⟩,
      group .and [clause ⟨"b", "y"⟩, clause ⟨"c", "z"⟩]]
    let check := (Check.ofAim "light").withTree tree
    (∃ node, parse nested = .ok node ∧ nesting nested.toList = 3 ∧
      node.overflow 7 = []) ∧
    parse flat = .ok tree ∧ parentheses flat.toList = [] ∧
    (∃ outcome, { checks := [check] : Rules }.evaluateValidated 1 [] true = .ok outcome ∧
      (CompiledRules.ofRules 7 { checks := [check] }).evaluate [] true = outcome) ∧
    (Condition.ofCheck 7 check).holds [⟨"c", "z"⟩, ⟨"b", "y"⟩] =
      check.resolve [⟨"c", "z"⟩, ⟨"b", "y"⟩] := by
  intro nested flat tree check
  obtain ⟨hbound, -, hrules, hverdict⟩ := nesting_bounds_depth
  have hnested : parse nested = .ok
      (group .or [group .and [clause ⟨"(", "x"⟩, group .or [clause ⟨"b", "y"⟩, empty]],
        clause ⟨"a)", "z"⟩]) := by decide +kernel
  have hnesting : nesting nested.toList = 3 := by decide +kernel
  have hflat : parse flat = .ok tree := by decide +kernel
  have hnone : parentheses flat.toList = [] := by decide +kernel
  have hcheck : ∀ member ∈ [check], member.WithoutParentheses := by
    intro member hmember
    obtain rfl : member = check := List.mem_singleton.mp hmember
    exact Check.withoutParentheses_withTree hflat hnone (Check.ofAim "light")
  obtain ⟨outcome, hgiven, hlimit⟩ := hrules { checks := [check] } hcheck [] true
  refine ⟨⟨_, hnested, hnesting, hbound 3 nested _ hnested (Nat.le_of_eq hnesting)⟩,
    hflat, hnone, ⟨outcome, hgiven, (hlimit 7 (by decide)).2⟩, ?_⟩
  exact hverdict flat tree hflat hnone (Check.ofAim "light") _ 7 (by decide)

end PlacementRules
