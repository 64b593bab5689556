import PlacementRules.Proofs.Parentheses

/-!
# Beginnings of rules

A text can break off where an operand of a rule is due, in the middle of a clause, or
before a closing parenthesis.  Wherever that is, it can be completed to a rule, and the
parentheses it leaves open are those that the grammar has yet to close.
-/

namespace PlacementRules

namespace Grammar

/--
The text begins a rule, an operand of it is due at `rest`, and `opened` parentheses are
open there.
-/
inductive OperandDue : Phrase Nat
  | atStart {text rest : List Char} : Blanks text rest → OperandDue text 0 rest
  | afterJoiner {operator : Operator} {text after word start rest : List Char}
      {node : Node} {opened : Nat} :
      Operand text node after → Blanks after word → Keyword operator word start →
      OperandDue start opened rest → OperandDue text opened rest
  | inParentheses {text inner rest : List Char} {opened : Nat} :
      Blanks text ('(' :: inner) → OperandDue inner opened rest →
      OperandDue text (opened + 1) rest

/-- The text breaks off behind the device name of a clause. -/
def AtSignDue (text : List Char) (opened : Nat) : Prop :=
  ∃ start device, OperandDue text opened start ∧ IsName start device []

/-- The text breaks off behind the device name of a clause and its `@`. -/
def AnchorDue (text : List Char) (opened : Nat) : Prop :=
  ∃ start device, OperandDue text opened start ∧ IsName start device ['@']

/-- The text breaks off behind a rule that stands in parentheses, and blanks. -/
def ClosingDue (text : List Char) (opened : Nat) : Prop :=
  1 ≤ opened ∧ ∃ start node after,
    OperandDue text opened start ∧ Rule start node after ∧ Blanks after []

namespace OperandDue

variable {text start rest : List Char} {opened : Nat}

theorem afterBlanks (hblanks : Blanks text start) (hdue : OperandDue start opened rest) :
    OperandDue text opened rest := by
  cases hdue with
  | atStart hstart => exact .atStart (hblanks.trans hstart)
  | afterJoiner hoperand hafter hkeyword hmore =>
      exact .afterJoiner (Operand.allowsBlanks _ _ _ _ hblanks hoperand) hafter hkeyword hmore
  | inParentheses hopen hinner => exact .inParentheses (hblanks.trans hopen) hinner

theorem exchange (hdue : OperandDue text opened rest) :
    Exchangeable OperandDue text opened rest := by
  induction hdue with
  | atStart hblanks =>
      obtain ⟨taken, htext, htaken⟩ := hblanks.exchange
      exact ⟨taken, htext, fun tail halike => .atStart (htaken tail halike)⟩
  | afterJoiner hoperand hblanks hkeyword _ ih =>
      obtain ⟨operand, rfl, hoperand'⟩ := hoperand.exchange
      obtain ⟨before, rfl, hbefore⟩ := hblanks.exchange
      obtain ⟨word, rfl, hword⟩ := hkeyword.exchange
      obtain ⟨taken, rfl, htaken⟩ := ih
      refine ⟨operand ++ (before ++ (word ++ taken)), by simp, ?_⟩
      intro tail halike
      have hstart := halike.append taken
      have hafter := hstart.append word
      have hdue := OperandDue.afterJoiner (hoperand' _ (hafter.append before))
        (hbefore _ hafter) (hword _ hstart) (htaken tail halike)
      simpa using hdue
  | inParentheses hopen _ ih =>
      obtain ⟨before, rfl, hbefore⟩ := hopen.exchange
      obtain ⟨taken, rfl, htaken⟩ := ih
      refine ⟨before ++ '(' :: taken, by simp, ?_⟩
      intro tail halike
      have hdue := OperandDue.inParentheses (hbefore _ ((halike.append taken).cons '('))
        (htaken tail halike)
      simpa using hdue

/-- Behind the name of a device, too, what follows can be exchanged. -/
theorem exchange_name {device : String} (hdue : OperandDue text opened start)
    (hname : IsName start device rest) :
    ∃ taken, text = taken ++ rest ∧ ∀ tail, (Delimited rest → Delimited tail) →
      ∃ start, OperandDue (taken ++ tail) opened start ∧ IsName start device tail := by
  obtain ⟨before, rfl, hbefore⟩ := hdue.exchange
  obtain ⟨chars, rfl, hne, hchars⟩ := hname.exchange
  obtain ⟨c, more, rfl⟩ := List.exists_cons_of_ne_nil hne
  refine ⟨before ++ c :: more, by simp, ?_⟩
  intro tail htail
  have hstart := hbefore _ (EndsAlike.cons_of_isName hname (more ++ tail))
  refine ⟨c :: more ++ tail, ?_, hchars tail htail⟩
  simpa using hstart

/-- The parentheses that are open are those opened and not closed on the way. -/
theorem parentheses_eq (hdue : OperandDue text opened rest) :
    ∃ marks, parentheses text = marks ++ parentheses rest ∧
      marks.count '(' = marks.count ')' + opened := by
  induction hdue with
  | atStart hblanks => exact ⟨[], hblanks.parentheses_eq, rfl⟩
  | afterJoiner hoperand hblanks hkeyword _ ih =>
      obtain ⟨first, hfirst, hfirstCount⟩ := hoperand.balances
      obtain ⟨more, hmore, hmoreCount⟩ := ih
      refine ⟨first ++ more, ?_, ?_⟩
      · rw [hfirst, hblanks.parentheses_eq, hkeyword.parentheses_eq, hmore,
          List.append_assoc]
      · rw [List.count_append, List.count_append, hfirstCount, hmoreCount]
        omega
  | inParentheses hopen _ ih =>
      obtain ⟨marks, hmarks, hcount⟩ := ih
      refine ⟨'(' :: marks, ?_, ?_⟩
      · rw [hopen.parentheses_eq, parentheses_open, hmarks]
        rfl
      · rw [List.count_cons_self, List.count_cons_of_ne (by decide), hcount]
        omega

theorem leavesOpen (hdue : OperandDue text opened start)
    (hstart : parentheses start = []) : LeavesOpen opened text := by
  obtain ⟨marks, hmarks, hcount⟩ := hdue.parentheses_eq
  rw [hstart, List.append_nil] at hmarks
  rw [LeavesOpen, hmarks, hcount]

end OperandDue

/-! ## Completing a rule -/

theorem Rule.joined {operator : Operator} {text after word start rest : List Char}
    {first node : Node} (hfirst : Operand text first after) (hblanks : Blanks after word)
    (hkeyword : Keyword operator word start) (hrule : Rule start node rest) :
    ∃ node, Rule text node rest := by
  cases operator with
  | and =>
      -- the operand becomes the first of the conjunction that the rule begins with
      have hconjunction : ∀ {node : Node} {after : List Char},
          Conjunction start node after → ∃ node, Conjunction text node after := by
        intro node after hconjunction
        cases hconjunction with
        | one hsecond =>
            exact ⟨_, .several hfirst (.cons hblanks hkeyword hsecond (.nil _))⟩
        | several hsecond hmore =>
            exact ⟨_, .several hfirst (.cons hblanks hkeyword hsecond hmore)⟩
      cases hrule with
      | one hstart =>
          obtain ⟨longer, hlonger⟩ := hconjunction hstart
          exact ⟨longer, .one hlonger⟩
      | several hstart hmore =>
          obtain ⟨longer, hlonger⟩ := hconjunction hstart
          exact ⟨_, .several hlonger hmore⟩
  | or =>
      cases hrule with
      | one hsecond =>
          exact ⟨_, .several (.one hfirst) (.cons hblanks hkeyword hsecond (.nil _))⟩
      | several hsecond hmore =>
          exact ⟨_, .several (.one hfirst) (.cons hblanks hkeyword hsecond hmore)⟩

def closers (opened : Nat) : List Char :=
  List.replicate opened ')'

theorem delimited_closers (opened : Nat) : Delimited (closers opened) := by
  cases opened with
  | zero =>
      intro c hc
      simp [closers] at hc
  | succ opened => exact delimited_closeParen _

/-- Where an operand is due, a rule and the missing parentheses complete the text. -/
theorem OperandDue.complete {text start : List Char} {opened : Nat}
    (hdue : OperandDue text opened start) {after rest : List Char} {node : Node}
    (hrule : Rule start node after) (hclose : Blanks after (closers opened ++ rest)) :
    ∃ node after, Rule text node after ∧ Blanks after rest := by
  induction hdue generalizing rest with
  | atStart hblanks =>
      exact ⟨node, after, Rule.allowsBlanks _ _ _ _ hblanks hrule, hclose⟩
  | afterJoiner hoperand hblanks hkeyword _ ih =>
      obtain ⟨more, last, hmore, hlast⟩ := ih hrule hclose
      obtain ⟨whole, hwhole⟩ := Rule.joined hoperand hblanks hkeyword hmore
      exact ⟨whole, last, hwhole, hlast⟩
  | @inParentheses _ _ _ opened hopen _ ih =>
      have hclosers : closers (opened + 1) ++ rest = closers opened ++ ')' :: rest := by
        rw [closers, closers, List.replicate_succ', List.append_assoc]
        rfl
      rw [hclosers] at hclose
      obtain ⟨inner, last, hinner, hlast⟩ := ih hrule hclose
      exact ⟨inner, rest, .one (.one (.parenthesized hopen hinner hlast)), .none rest⟩

theorem OperandDue.exists_derives {text start : List Char} {opened : Nat}
    (hdue : OperandDue text opened start) {after : List Char} {node : Node}
    (hrule : Rule start node after) (hclose : Blanks after (closers opened)) :
    ∃ node, Derives text node := by
  rw [← List.append_nil (closers opened)] at hclose
  obtain ⟨whole, last, hwhole, hlast⟩ := hdue.complete hrule hclose
  exact ⟨whole, last, hwhole, hlast⟩

/-- With more text behind it, the text is a rule. -/
def Completable (text : List Char) : Prop :=
  ∃ more node, Derives (text ++ more) node

section

variable {text : List Char} {opened : Nat}

theorem rule_of_operand {rest : List Char} {node : Node} (hoperand : Operand text node rest) :
    Rule text node rest :=
  .one (.one hoperand)

theorem OperandDue.completable (hdue : OperandDue text opened []) : Completable text := by
  obtain ⟨taken, rfl, htaken⟩ := hdue.exchange
  rw [List.append_nil]
  let clause : Node := .clause ⟨"device", "anchor"⟩
  have hoperand : Operand (clause.chars ++ closers opened) clause (closers opened) :=
    Node.operand_chars rfl (delimited_closers opened)
  -- the line feed ends a keyword or a comment that the text may break off in
  have hline : Blanks ('\n' :: (clause.chars ++ closers opened))
      (clause.chars ++ closers opened) := .blank (by decide) (.none _)
  have hrule := rule_of_operand (Operand.allowsBlanks _ _ _ _ hline hoperand)
  exact ⟨_, (htaken _ (EndsAlike.newline [] _)).exists_derives hrule (.none _)⟩

/-- What completes a text that breaks off where the anchor of a clause is due. -/
def anchorAndClosers (opened : Nat) : List Char :=
  Name.write "anchor".toList ++ closers opened

theorem OperandDue.exists_derives_clause {start : List Char} {device : String}
    (hdue : OperandDue text opened start)
    (hdevice : IsName start device ('@' :: anchorAndClosers opened)) :
    ∃ node, Derives text node := by
  have hanchor := Name.isName_write "anchor" (delimited_closers opened)
  have hrule := rule_of_operand (.clause (.none start) hdevice hanchor)
  exact hdue.exists_derives hrule (.none _)

theorem AtSignDue.completable (hdue : AtSignDue text opened) : Completable text := by
  obtain ⟨start, device, hstart, hdevice⟩ := hdue
  obtain ⟨taken, rfl, htaken⟩ := hstart.exchange_name hdevice
  obtain ⟨start, hstart', hdevice'⟩ := htaken ('@' :: anchorAndClosers opened)
    fun _ => delimited_at _
  rw [List.append_nil]
  exact ⟨_, hstart'.exists_derives_clause hdevice'⟩

theorem AnchorDue.completable (hdue : AnchorDue text opened) : Completable text := by
  obtain ⟨start, device, hstart, hdevice⟩ := hdue
  obtain ⟨taken, rfl, htaken⟩ := hstart.exchange_name hdevice
  obtain ⟨start, hstart', hdevice'⟩ := htaken ('@' :: anchorAndClosers opened)
    fun _ => delimited_at _
  refine ⟨anchorAndClosers opened, ?_⟩
  rw [List.append_assoc]
  exact hstart'.exists_derives_clause hdevice'

theorem ClosingDue.completable (hdue : ClosingDue text opened) : Completable text := by
  obtain ⟨-, start, node, after, hstart, hrule, hend⟩ := hdue
  obtain ⟨taken, rfl, htaken⟩ := hstart.exchange
  obtain ⟨rule, rfl, hrule'⟩ := hrule.exchange
  obtain ⟨blanks, rfl, hblanks⟩ := hend.exchange
  -- as above, the text may break off in a comment
  have halike := EndsAlike.newline [] (closers opened)
  have hline : Blanks ('\n' :: closers opened) (closers opened) :=
    .blank (by decide) (.none _)
  have hafter := halike.append blanks
  have hclose := (hblanks _ halike).trans hline
  refine ⟨'\n' :: closers opened, ?_⟩
  have hcomplete := (htaken _ (hafter.append rule)).exists_derives (hrule' _ hafter) hclose
  simpa using hcomplete

/-! ## Open parentheses -/

theorem AtSignDue.leavesOpen (hdue : AtSignDue text opened) : LeavesOpen opened text := by
  obtain ⟨start, device, hstart, hdevice⟩ := hdue
  exact hstart.leavesOpen hdevice.parentheses_eq

theorem AnchorDue.leavesOpen (hdue : AnchorDue text opened) : LeavesOpen opened text := by
  obtain ⟨start, device, hstart, hdevice⟩ := hdue
  exact hstart.leavesOpen hdevice.parentheses_eq

theorem ClosingDue.leavesOpen (hdue : ClosingDue text opened) : LeavesOpen opened text := by
  obtain ⟨-, start, node, after, hstart, hrule, hend⟩ := hdue
  obtain ⟨marks, hmarks, hcount⟩ := hstart.parentheses_eq
  obtain ⟨more, hmore, hmoreCount⟩ := hrule.balances
  have hnone : parentheses after = [] := hend.parentheses_eq
  rw [hmore, hnone, List.append_nil] at hmarks
  rw [LeavesOpen, hmarks, List.count_append, List.count_append, hcount, hmoreCount]
  omega

theorem Derives.leavesOpen {node : Node} (hderives : Derives text node) :
    LeavesOpen 0 text := by
  obtain ⟨after, hrule, hend⟩ := hderives
  obtain ⟨marks, hmarks, hcount⟩ := hrule.balances
  have hnone : parentheses after = [] := hend.parentheses_eq
  rw [hnone, List.append_nil] at hmarks
  rw [LeavesOpen, hmarks, hcount, Nat.add_zero]

end

end Grammar

end PlacementRules
