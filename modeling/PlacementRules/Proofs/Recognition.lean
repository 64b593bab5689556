import PlacementRules.Proofs.Lexical

/-!
# Reading accepts exactly the grammar

The reader of rule text commits itself at every keyword and parenthesis and never
takes a step back.  It still accepts every text the grammar derives, with the tree
that the grammar assigns, and no other text.
-/

namespace PlacementRules

open Grammar

namespace Reading

/-! ## Soundness -/

/-- What the reader takes is the phrase, and never nothing. -/
structure Sound (reader : Reader Node) (phrase : Phrase Node) : Prop where
  derives : ∀ {text rest : List Char} {node : Node},
    reader text = .ok (node, rest) → phrase text node rest
  shortens : ∀ {text rest : List Char} {node : Node},
    reader text = .ok (node, rest) → rest.length < text.length

theorem mapError_eq_ok_iff {ε ε' α : Type} {result : Except ε α} {f : ε → ε'}
    {value : α} : result.mapError f = .ok value ↔ result = .ok value := by
  cases result <;> simp [Except.mapError]

theorem readClause_eq_ok_iff {text rest : List Char} {node : Node} :
    readClause text = .ok (node, rest) ↔
      ∃ device middle anchor, IsName text device ('@' :: middle) ∧
        IsName middle anchor rest ∧ node = .clause ⟨device, anchor⟩ := by
  constructor
  · intro hread
    unfold readClause at hread
    split at hread
    · simp at hread
    · rename_i device middle hdevice
      split at hread
      · simp at hread
      · rename_i anchor after hanchor
        obtain ⟨rfl, rfl⟩ := Prod.mk.inj (Except.ok.inj hread)
        exact ⟨device, middle, anchor, readName_eq_ok_iff.mp hdevice,
          readName_eq_ok_iff.mp hanchor, rfl⟩
    · simp at hread
  · rintro ⟨device, middle, anchor, hdevice, hanchor, rfl⟩
    simp only [readClause, readName_eq_ok_iff.mpr hdevice, readName_eq_ok_iff.mpr hanchor]

theorem readParenthesized_eq_ok_iff {rule : Reader Node} {text rest : List Char}
    {node : Node} :
    readParenthesized rule text = .ok (node, rest) ↔
      (Blank.skip text = ')' :: rest ∧ node = .empty) ∨
      ((∀ more, Blank.skip text ≠ ')' :: more) ∧
        ∃ after, rule (Blank.skip text) = .ok (node, after) ∧
          Blank.skip after = ')' :: rest) := by
  unfold readParenthesized
  split
  · rename_i more hskip
    simp [hskip, eq_comm, and_comm]
  · rename_i hopen
    have hopen' : ∀ more, Blank.skip text ≠ ')' :: more := fun more h => hopen more h
    cases hrule : rule (Blank.skip text) with
    | error failure => simp [hopen']
    | ok result =>
        obtain ⟨inner, after⟩ := result
        dsimp only
        split
        · rename_i more hclose
          constructor
          · intro hread
            obtain ⟨rfl, rfl⟩ := Prod.mk.inj (Except.ok.inj hread)
            exact .inr ⟨hopen', after, rfl, hclose⟩
          · rintro (⟨hnone, _⟩ | ⟨_, after, hread, hclose'⟩)
            · exact absurd hnone (hopen' rest)
            · obtain ⟨rfl, rfl⟩ := Prod.mk.inj (Except.ok.inj hread)
              rw [(List.cons.inj (hclose.symm.trans hclose')).2]
        · rename_i hclose
          constructor
          · intro hread
            simp at hread
          · rintro (⟨hnone, _⟩ | ⟨_, after, hread, hclose'⟩)
            · exact absurd hnone (hopen' rest)
            · obtain ⟨rfl, rfl⟩ := Prod.mk.inj (Except.ok.inj hread)
              exact (hclose rest hclose').elim

theorem readOperand_eq_ok_iff {rule : Reader Node} {text rest : List Char} {node : Node} :
    readOperand rule text = .ok (node, rest) ↔
      (∃ inner, Blank.skip text = '(' :: inner ∧
        readParenthesized rule inner = .ok (node, rest)) ∨
      ((∀ inner, Blank.skip text ≠ '(' :: inner) ∧
        readClause (Blank.skip text) = .ok (node, rest)) := by
  unfold readOperand
  rw [mapError_eq_ok_iff]
  split
  · rename_i inner hskip
    simp [hskip]
  · rename_i hopen
    have hopen' : ∀ inner, Blank.skip text ≠ '(' :: inner := fun inner h => hopen inner h
    simp [hopen']

theorem readChain_eq_ok_iff {operator : Operator} {part : Reader Node}
    {text rest : List Char} {node : Node} :
    readChain operator part text = .ok (node, rest) ↔
      ∃ first after more, part text = .ok (first, after) ∧
        readMore operator part after.length after = .ok (more, rest) ∧
        node = Node.join operator first more := by
  unfold readChain
  cases hpart : part text with
  | error failure => simp
  | ok result =>
      obtain ⟨first, after⟩ := result
      cases hmore : readMore operator part after.length after with
      | error failure => simp [hmore]
      | ok result =>
          obtain ⟨more, last⟩ := result
          dsimp only
          rw [hmore]
          constructor
          · intro hread
            obtain ⟨rfl, rfl⟩ := Prod.mk.inj (Except.ok.inj hread)
            exact ⟨first, after, more, rfl, hmore, rfl⟩
          · rintro ⟨first, after, more, hfirst, hmore', rfl⟩
            obtain ⟨rfl, rfl⟩ := Prod.mk.inj (Except.ok.inj hfirst)
            obtain ⟨rfl, rfl⟩ := Prod.mk.inj (Except.ok.inj (hmore.symm.trans hmore'))
            rfl

theorem readMore_of_joiner_eq_none {operator : Operator} {text : List Char}
    (hjoiner : readJoiner? operator text = none) (part : Reader Node) (count : Nat) :
    readMore operator part count text = .ok ([], text) := by
  cases count with
  | zero => rfl
  | succ count => simp only [readMore, hjoiner]

theorem readOperand_sound {rule : Reader Node} (hrule : Sound rule Rule) :
    Sound (readOperand rule) Operand := by
  have hread : ∀ {text rest : List Char} {node : Node},
      readOperand rule text = .ok (node, rest) →
        Operand text node rest ∧ rest.length < text.length := by
    intro text rest node hread
    have hblanks := Blank.blanks_skip text
    have hskipped := hblanks.length_le
    rcases readOperand_eq_ok_iff.mp hread with ⟨inner, hskip, hparen⟩ | ⟨_, hclause⟩
    · rw [hskip] at hblanks hskipped
      have hblanks' := Blank.blanks_skip inner
      have hskipped' := hblanks'.length_le
      rw [List.length_cons] at hskipped
      rcases readParenthesized_eq_ok_iff.mp hparen with
        ⟨hclose, rfl⟩ | ⟨_, after, hinner, hclose⟩
      · rw [hclose] at hblanks' hskipped'
        rw [List.length_cons] at hskipped'
        exact ⟨.emptyGroup hblanks hblanks', by omega⟩
      · have hafter := Blank.blanks_skip after
        have hshort := hrule.shortens hinner
        have hlast := hafter.length_le
        rw [hclose] at hafter hlast
        rw [List.length_cons] at hlast
        have hinner' : Rule inner node after :=
          Rule.allowsBlanks _ _ _ _ hblanks' (hrule.derives hinner)
        exact ⟨.parenthesized hblanks hinner' hafter, by omega⟩
    · obtain ⟨device, middle, anchor, hdevice, hanchor, rfl⟩ :=
        readClause_eq_ok_iff.mp hclause
      have hshort := hdevice.length_lt
      have hshort' := hanchor.length_lt
      rw [List.length_cons] at hshort
      exact ⟨.clause hblanks hdevice hanchor, by omega⟩
  exact ⟨fun h => (hread h).1, fun h => (hread h).2⟩

theorem readMore_sound {operator : Operator} {part : Reader Node} {phrase : Phrase Node}
    (hpart : Sound part phrase) {count : Nat} {text rest : List Char}
    {nodes : List Node} (hread : readMore operator part count text = .ok (nodes, rest)) :
    Links operator phrase text nodes rest ∧ rest.length ≤ text.length := by
  induction count generalizing text nodes with
  | zero =>
      obtain ⟨rfl, rfl⟩ := Prod.mk.inj (Except.ok.inj hread)
      exact ⟨.nil text, Nat.le_refl _⟩
  | succ count ih =>
      unfold readMore at hread
      split at hread
      · obtain ⟨rfl, rfl⟩ := Prod.mk.inj (Except.ok.inj hread)
        exact ⟨.nil text, Nat.le_refl _⟩
      · rename_i start hjoiner
        obtain ⟨word, hblanks, hkeyword⟩ := exists_blanks_of_readJoiner? hjoiner
        split at hread
        · simp at hread
        · rename_i node after hnode
          split at hread
          · simp at hread
          · rename_i more last hmore
            obtain ⟨rfl, rfl⟩ := Prod.mk.inj (Except.ok.inj hread)
            obtain ⟨hlinks, hle⟩ := ih hmore
            have hword := hblanks.length_le
            have hstart := hkeyword.length_lt
            have hafter := hpart.shortens hnode
            exact ⟨.cons hblanks hkeyword (hpart.derives hnode) hlinks, by omega⟩

theorem readChain_sound {part : Reader Node} {phrase : Phrase Node}
    (operator : Operator) (hpart : Sound part phrase) :
    Sound (readChain operator part) (Chain operator phrase) := by
  have hread : ∀ {text rest : List Char} {node : Node},
      readChain operator part text = .ok (node, rest) →
        Chain operator phrase text node rest ∧ rest.length < text.length := by
    intro text rest node hread
    obtain ⟨first, after, more, hfirst, hmore, rfl⟩ := readChain_eq_ok_iff.mp hread
    obtain ⟨hlinks, hle⟩ := readMore_sound hpart hmore
    have hlt := hpart.shortens hfirst
    refine ⟨?_, by omega⟩
    cases more with
    | nil =>
        cases hlinks
        exact .one (hpart.derives hfirst)
    | cons second more => exact .several (hpart.derives hfirst) hlinks
  exact ⟨fun h => (hread h).1, fun h => (hread h).2⟩

theorem readRule_sound (fuel : Nat) : Sound (readRule fuel) Rule := by
  induction fuel with
  | zero => exact ⟨fun h => by simp [readRule] at h, fun h => by simp [readRule] at h⟩
  | succ fuel ih => exact readChain_sound .or (readChain_sound .and (readOperand_sound ih))

/-! ## Completeness -/

/--
The reader takes every phrase of a text shorter than `bound` whose rest the phrase
may end at.
-/
def Complete (bound : Nat) (ends : List Char → Prop) (reader : Reader Node)
    (phrase : Phrase Node) : Prop :=
  ∀ (text rest : List Char) (node : Node), phrase text node rest →
    text.length < bound → ends rest → reader text = .ok (node, rest)

/-- No keyword goes on with the rule. -/
def NoJoiner (text : List Char) : Prop :=
  ∀ operator, readJoiner? operator text = none

theorem noJoiner_of_head {text rest : List Char} (hblanks : Blanks text rest)
    (hstops : Blank.Stops rest) (hhead : ∀ c ∈ rest.head?, Name.isNameChar c = false) :
    NoJoiner text :=
  fun operator => readJoiner?_eq_none_of_head operator hblanks hstops hhead

theorem noJoiner_of_closeParen {text rest : List Char}
    (hclose : Blanks text (')' :: rest)) : NoJoiner text := by
  apply noJoiner_of_head hclose (Blank.stops_closeParen rest)
  intro c hc
  obtain rfl : ')' = c := by simpa using hc
  decide

theorem noJoiner_of_blanks_nil {text : List Char} (hend : Blanks text []) :
    NoJoiner text := by
  apply noJoiner_of_head hend Blank.stops_nil
  intro c hc
  simp at hc

/-- An operand does not begin with a closing parenthesis. -/
theorem not_operand_closeParen {text rest : List Char} {node : Node} :
    ¬ Operand (')' :: text) node rest := by
  have hself : Blank.skip (')' :: text) = ')' :: text :=
    Blank.skip_eq_self (Blank.stops_closeParen text)
  have hopen : ∀ inner, ¬ Blanks (')' :: text) ('(' :: inner) := by
    intro inner hblanks
    have hskip := Blank.skip_eq_of_blanks hblanks (Blank.stops_openParen inner)
    simp [hself] at hskip
  intro hoperand
  cases hoperand with
  | emptyGroup hblanks _ => exact hopen _ hblanks
  | parenthesized hblanks _ _ => exact hopen _ hblanks
  | clause hblanks hdevice _ =>
      have hskip := Blank.skip_eq_of_blanks hblanks (Blank.stops_of_isName hdevice)
      rw [← hskip, hself] at hdevice
      exact not_isName_closeParen hdevice

theorem not_chain_closeParen {operator : Operator} {phrase : Phrase Node}
    (hphrase : ∀ {text rest : List Char} {node : Node}, ¬ phrase (')' :: text) node rest)
    {text rest : List Char} {node : Node} :
    ¬ Chain operator phrase (')' :: text) node rest := by
  intro hchain
  cases hchain with
  | one hfirst => exact hphrase hfirst
  | several hfirst _ => exact hphrase hfirst

/-- A phrase that does not change when the blanks before it are left out. -/
def DropsBlanks (phrase : Phrase Node) : Prop :=
  ∀ (text rest : List Char) (node : Node),
    phrase text node rest → phrase (Blank.skip text) node rest

theorem operand_dropsBlanks : DropsBlanks Operand := by
  intro text rest node hoperand
  have hopen : ∀ {inner : List Char}, Blanks text ('(' :: inner) →
      Blanks (Blank.skip text) ('(' :: inner) := by
    intro inner hblanks
    rw [Blank.skip_eq_of_blanks hblanks (Blank.stops_openParen inner)]
    exact .none _
  cases hoperand with
  | emptyGroup hblanks hclose => exact .emptyGroup (hopen hblanks) hclose
  | parenthesized hblanks hinner hclose =>
      exact .parenthesized (hopen hblanks) hinner hclose
  | clause hblanks hdevice hanchor =>
      rw [Blank.skip_eq_of_blanks hblanks (Blank.stops_of_isName hdevice)]
      exact .clause (.none _) hdevice hanchor

theorem chain_dropsBlanks {operator : Operator} {phrase : Phrase Node}
    (hphrase : DropsBlanks phrase) : DropsBlanks (Chain operator phrase) := by
  intro text rest node hchain
  cases hchain with
  | one hfirst => exact .one (hphrase _ _ _ hfirst)
  | several hfirst hlinks => exact .several (hphrase _ _ _ hfirst) hlinks

theorem readOperand_complete {bound : Nat} {rule : Reader Node}
    (hrule : Complete bound NoJoiner rule Rule) :
    Complete (bound + 1) (fun _ => True) (readOperand rule) Operand := by
  intro text rest node hoperand hbound _
  have hopen : ∀ {inner : List Char}, Blanks text ('(' :: inner) →
      Blank.skip text = '(' :: inner ∧ inner.length < bound := by
    intro inner hblanks
    have hle := hblanks.length_le
    rw [List.length_cons] at hle
    exact ⟨Blank.skip_eq_of_blanks hblanks (Blank.stops_openParen inner), by omega⟩
  rw [readOperand_eq_ok_iff]
  cases hoperand with
  | emptyGroup hblanks hclose =>
      refine .inl ⟨_, (hopen hblanks).1, ?_⟩
      rw [readParenthesized_eq_ok_iff]
      exact .inl ⟨Blank.skip_eq_of_blanks hclose (Blank.stops_closeParen rest), rfl⟩
  | @parenthesized _ inner after _ _ hblanks hinner hclose =>
      obtain ⟨hskip, hshort⟩ := hopen hblanks
      have hle := (Blank.blanks_skip inner).length_le
      have hstripped : Rule (Blank.skip inner) node after :=
        chain_dropsBlanks (chain_dropsBlanks operand_dropsBlanks) _ _ _ hinner
      have hread := hrule _ _ _ hstripped (by omega) (noJoiner_of_closeParen hclose)
      refine .inl ⟨inner, hskip, ?_⟩
      rw [readParenthesized_eq_ok_iff]
      refine .inr ⟨?_, after, hread, ?_⟩
      · intro more hparen
        rw [hparen] at hstripped
        exact not_chain_closeParen (not_chain_closeParen not_operand_closeParen) hstripped
      · exact Blank.skip_eq_of_blanks hclose (Blank.stops_closeParen rest)
  | clause hblanks hdevice hanchor =>
      rw [Blank.skip_eq_of_blanks hblanks (Blank.stops_of_isName hdevice)]
      refine .inr ⟨?_, readClause_eq_ok_iff.mpr ⟨_, _, _, hdevice, hanchor, rfl⟩⟩
      intro inner hparen
      rw [hparen] at hdevice
      exact not_isName_openParen hdevice

section

variable (operator : Operator) {part : Reader Node} {phrase : Phrase Node}
  {bound : Nat} {ends : List Char → Prop}

/--
Further parts are read up to a rest that no keyword of the operator goes on with.
Every part but the last ends at such a keyword.
-/
theorem readMore_complete (hsound : Sound part phrase)
    (hpart : Complete bound ends part phrase)
    (hends : ∀ text start, readJoiner? operator text = some start → ends text)
    {text rest : List Char} {nodes : List Node}
    (hlinks : Links operator phrase text nodes rest) (hbound : text.length < bound)
    (hrest : ends rest) (hlast : readJoiner? operator rest = none) {count : Nat}
    (hcount : text.length ≤ count) :
    readMore operator part count text = .ok (nodes, rest) := by
  induction hlinks generalizing count with
  | nil text => exact readMore_of_joiner_eq_none hlast part count
  | @cons text word start after rest node more hblanks hkeyword hnode hmore ih =>
      have hword := hblanks.length_le
      have hstart := hkeyword.length_lt
      have hafter : ends after := by
        cases hmore with
        | nil _ => exact hrest
        | cons hblanks' hkeyword' _ _ =>
            exact hends _ _ (readJoiner?_eq_some_of_blanks hblanks' hkeyword')
      have hread := hpart _ _ _ hnode (by omega) hafter
      have hshort := hsound.shortens hread
      cases count with
      | zero => omega
      | succ count =>
          have htail := ih (by omega) hrest hlast (show after.length ≤ count by omega)
          simp [readMore, readJoiner?_eq_some_of_blanks hblanks hkeyword, hread, htail]

theorem readChain_complete (hsound : Sound part phrase)
    (hpart : Complete bound ends part phrase)
    (hends : ∀ text start, readJoiner? operator text = some start → ends text) :
    Complete bound (fun rest => ends rest ∧ readJoiner? operator rest = none)
      (readChain operator part) (Chain operator phrase) := by
  intro text rest node hchain hbound ⟨hrest, hlast⟩
  rw [readChain_eq_ok_iff]
  cases hchain with
  | one hfirst =>
      have hread := hpart _ _ _ hfirst hbound hrest
      exact ⟨node, rest, [], hread, readMore_of_joiner_eq_none hlast part _, rfl⟩
  | @several _ after _ first second more hfirst hlinks =>
      have hafter : ends after := by
        cases hlinks with
        | cons hblanks hkeyword _ _ =>
            exact hends _ _ (readJoiner?_eq_some_of_blanks hblanks hkeyword)
      have hread := hpart _ _ _ hfirst hbound hafter
      have hshort := hsound.shortens hread
      have hmore := readMore_complete operator hsound hpart hends hlinks (by omega) hrest hlast
        (Nat.le_refl _)
      exact ⟨first, after, second :: more, hread, hmore, rfl⟩

end

theorem readRule_complete (fuel : Nat) : Complete fuel NoJoiner (readRule fuel) Rule := by
  induction fuel with
  | zero =>
      intro text rest node _ hbound
      omega
  | succ fuel ih =>
      have hoperand := readOperand_sound (readRule_sound fuel)
      have hconjunction := readChain_complete .and hoperand (readOperand_complete ih)
        (fun _ _ _ => trivial)
      have hrule := readChain_complete .or (readChain_sound .and hoperand) hconjunction
        (fun _ _ hor => ⟨trivial, readJoiner?_eq_none_of_ne hor (by decide)⟩)
      intro text rest node hderives hbound hend
      exact hrule text rest node hderives hbound ⟨⟨trivial, hend .and⟩, hend .or⟩

end Reading

namespace Node

theorem derives_of_parse {text : String} {node : Node} (hparse : parse text = .ok node) :
    Derives text.toList node := by
  rw [parse, Reading.mapError_eq_ok_iff] at hparse
  unfold Reading.readWhole at hparse
  split at hparse
  · simp at hparse
  · rename_i root after hroot
    split at hparse
    · rename_i hend
      obtain rfl := Except.ok.inj hparse
      have hblanks := Blank.blanks_skip after
      rw [hend] at hblanks
      exact ⟨after, (Reading.readRule_sound _).derives hroot, hblanks⟩
    · simp at hparse

theorem parse_of_derives {text : String} {node : Node}
    (hderives : Derives text.toList node) : parse text = .ok node := by
  obtain ⟨after, hrule, hend⟩ := hderives
  have hread := Reading.readRule_complete (text.toList.length + 1) _ _ _ hrule
    (Nat.lt_succ_self _) (Reading.noJoiner_of_blanks_nil hend)
  have hskip := Blank.skip_eq_of_blanks hend Blank.stops_nil
  rw [parse, Reading.mapError_eq_ok_iff, Reading.readWhole, hread]
  simp [hskip]

/--
A text is read as a tree exactly if the grammar derives the tree from the whole
text.
-/
theorem parse_eq_ok_iff (text : String) (node : Node) :
    parse text = .ok node ↔ Derives text.toList node :=
  ⟨derives_of_parse, parse_of_derives⟩

end Node

end PlacementRules
