import PlacementRules.Proofs.Printing

/-!
# How far a phrase looks ahead

Whether a phrase ends at a place of the text depends on little of what follows: on
whether a name, a line or a pair of return and line feed would be cut in two.  So what
follows a phrase can be exchanged for another text that begins alike.
-/

namespace PlacementRules

namespace Grammar

/-- Whatever can end before `rest` can end before `tail` as well. -/
structure EndsAlike (rest tail : List Char) : Prop where
  delimited : Delimited rest → Delimited tail
  lineEnd : LineEnd rest → LineEnd tail
  lineFeed : rest.head? = some '\n' → tail.head? = some '\n'

namespace EndsAlike

/-- Before a line feed everything can end. -/
theorem newline (rest tail : List Char) : EndsAlike rest ('\n' :: tail) where
  delimited := fun _ => delimited_cons (by decide) tail
  lineEnd := fun _ => .lineFeed tail
  lineFeed := fun _ => rfl

/-- At the end of the text everything can end but a return that its line feed follows. -/
theorem nil {rest : List Char} (hrest : rest.head? ≠ some '\n') : EndsAlike rest [] where
  delimited := fun _ => delimited_nil
  lineEnd := fun _ => .atEnd
  lineFeed := fun hfeed => absurd hfeed hrest

theorem cons {rest tail : List Char} (halike : EndsAlike rest tail) (c : Char) :
    EndsAlike (c :: rest) (c :: tail) where
  delimited := fun hrest first hfirst => hrest first (by simpa using hfirst)
  lineEnd := by
    intro hend
    cases hend with
    | lineFeed _ => exact .lineFeed tail
    | returnLineFeed more =>
        obtain ⟨after, rfl⟩ := List.head?_eq_some_iff.mp (halike.lineFeed rfl)
        exact .returnLineFeed after
  lineFeed := by simp

theorem append {rest tail : List Char} (halike : EndsAlike rest tail)
    (taken : List Char) : EndsAlike (taken ++ rest) (taken ++ tail) := by
  induction taken with
  | nil => exact halike
  | cons c taken ih => exact ih.cons c

/-- A text that begins with the first character of a name is not cut in two before it. -/
theorem cons_of_isName {c : Char} {rest after : List Char} {name : String}
    (hname : IsName (c :: rest) name after) (tail : List Char) :
    EndsAlike (c :: rest) (c :: tail) where
  delimited := fun hrest first hfirst => hrest first (by simpa using hfirst)
  lineEnd := by
    intro hend
    obtain ⟨first, more, hcons, hfirst⟩ := hname.head
    obtain ⟨rfl, rfl⟩ := List.cons.inj hcons
    cases hend with
    | lineFeed _ => exact absurd hfirst (by decide)
    | returnLineFeed _ => exact absurd hfirst (by decide)
  lineFeed := by simp

end EndsAlike

/-! ## Blanks, names and keywords -/

theorem Blanks.exchange {text rest : List Char} (hblanks : Blanks text rest) :
    ∃ taken, text = taken ++ rest ∧
      ∀ tail, EndsAlike rest tail → Blanks (taken ++ tail) tail := by
  induction hblanks with
  | none text => exact ⟨[], rfl, fun tail _ => .none tail⟩
  | @blank c text rest hc _ ih =>
      obtain ⟨taken, rfl, hmove⟩ := ih
      exact ⟨c :: taken, rfl, fun tail halike => .blank hc (hmove tail halike)⟩
  | @comment words after rest hwords hend _ ih =>
      obtain ⟨taken, rfl, hmove⟩ := ih
      refine ⟨'#' :: (words ++ taken), by simp, ?_⟩
      intro tail halike
      have hend' := (halike.append taken).lineEnd hend
      simpa using Blanks.comment hwords hend' (hmove tail halike)

theorem Word.exchange {text word rest : List Char} (hword : Word text word rest)
    {tail : List Char} (htail : Delimited tail) : Word (word ++ tail) word tail :=
  ⟨rfl, hword.nonempty, hword.nameChars, htail⟩

theorem Quoted.exchange {text name rest : List Char} (hquoted : Quoted text name rest) :
    ∃ taken, text = taken ++ rest ∧ ∀ tail, Quoted (taken ++ tail) name tail := by
  induction hquoted with
  | close rest => exact ⟨['"'], rfl, fun tail => .close tail⟩
  | quote _ ih =>
      obtain ⟨taken, rfl, hmove⟩ := ih
      exact ⟨'\\' :: '"' :: taken, rfl, fun tail => .quote (hmove tail)⟩
  | backslash _ ih =>
      obtain ⟨taken, rfl, hmove⟩ := ih
      exact ⟨'\\' :: '\\' :: taken, rfl, fun tail => .backslash (hmove tail)⟩
  | @kept c _ _ _ hquote hbackslash _ ih =>
      obtain ⟨taken, rfl, hmove⟩ := ih
      exact ⟨'\\' :: c :: taken, rfl, fun tail => .kept hquote hbackslash (hmove tail)⟩
  | @plain c _ _ _ hquote hbackslash _ ih =>
      obtain ⟨taken, rfl, hmove⟩ := ih
      exact ⟨c :: taken, rfl, fun tail => .plain hquote hbackslash (hmove tail)⟩

theorem IsName.exchange {text rest : List Char} {name : String}
    (hname : IsName text name rest) :
    ∃ taken, text = taken ++ rest ∧ taken ≠ [] ∧
      ∀ tail, (Delimited rest → Delimited tail) → IsName (taken ++ tail) name tail := by
  cases hname with
  | bare hword =>
      refine ⟨_, hword.split, hword.nonempty, ?_⟩
      intro tail htail
      exact .bare (hword.exchange (htail hword.longest))
  | quoted hquoted =>
      obtain ⟨taken, rfl, hmove⟩ := hquoted.exchange
      exact ⟨'"' :: taken, rfl, by simp, fun tail _ => .quoted (hmove tail)⟩

theorem Keyword.exchange {operator : Operator} {text rest : List Char}
    (hkeyword : Keyword operator text rest) :
    ∃ taken, text = taken ++ rest ∧
      ∀ tail, EndsAlike rest tail → Keyword operator (taken ++ tail) tail := by
  obtain ⟨word, hword, hspelling⟩ := hkeyword
  refine ⟨word, hword.split, ?_⟩
  intro tail halike
  exact ⟨word, hword.exchange (halike.delimited hword.longest), hspelling⟩

/-! ## Operands -/

/--
Induction over operands.  What is known of the operands inside parentheses stands in
for them in the chains of the rule there.
-/
theorem Operand.induction {motive : Phrase Node}
    (emptyGroup : ∀ {text inner rest : List Char},
      Blanks text ('(' :: inner) → Blanks inner (')' :: rest) →
      motive text (.group .and []) rest)
    (parenthesized : ∀ {text inner after rest : List Char} {node : Node},
      Blanks text ('(' :: inner) → Chain .or (Chain .and motive) inner node after →
      Blanks after (')' :: rest) → motive text node rest)
    (clause : ∀ {text start middle rest : List Char} {device anchor : String},
      Blanks text start → IsName start device ('@' :: middle) →
      IsName middle anchor rest → motive text (.clause ⟨device, anchor⟩) rest)
    {text rest : List Char} {node : Node} (hoperand : Operand text node rest) :
    motive text node rest :=
  @Operand.rec (fun text node rest _ => motive text node rest)
    (fun text node rest _ => Chain .or (Chain .and motive) text node rest)
    (fun text node rest _ => Chain .and motive text node rest)
    (fun text nodes rest _ => Links .or (Chain .and motive) text nodes rest)
    (fun text nodes rest _ => Links .and motive text nodes rest)
    emptyGroup (fun hopen _ hclose hinner => parenthesized hopen hinner hclose) clause
    (fun _ hfirst => .one hfirst) (fun _ _ hfirst hmore => .several hfirst hmore)
    (fun _ hfirst => .one hfirst) (fun _ _ hfirst hmore => .several hfirst hmore)
    (fun text => .nil text)
    (fun hblanks hkeyword _ _ hnode hmore => .cons hblanks hkeyword hnode hmore)
    (fun text => .nil text)
    (fun hblanks hkeyword _ _ hnode hmore => .cons hblanks hkeyword hnode hmore)
    text node rest hoperand

section

variable {operator : Operator} {part other : Phrase Node}

theorem Links.mono (hpart : ∀ {text rest : List Char} {node : Node},
      part text node rest → other text node rest)
    {text rest : List Char} {nodes : List Node} (hlinks : Links operator part text nodes rest) :
    Links operator other text nodes rest := by
  induction hlinks with
  | nil text => exact .nil text
  | cons hblanks hkeyword hnode _ ih => exact .cons hblanks hkeyword (hpart hnode) ih

theorem Chain.mono (hpart : ∀ {text rest : List Char} {node : Node},
      part text node rest → other text node rest)
    {text rest : List Char} {node : Node} (hchain : Chain operator part text node rest) :
    Chain operator other text node rest := by
  cases hchain with
  | one hfirst => exact .one (hpart hfirst)
  | several hfirst hlinks => exact .several (hpart hfirst) (hlinks.mono hpart)

end

/-! ## What follows can be exchanged -/

/-- What the phrase takes here, it takes in front of every tail that ends it alike. -/
def Exchangeable {α : Type} (phrase : Phrase α) : Phrase α := fun text value rest =>
  ∃ taken, text = taken ++ rest ∧
    ∀ tail, EndsAlike rest tail → phrase (taken ++ tail) value tail

section

variable {operator : Operator} {part : Phrase Node} {text rest : List Char}

theorem Links.exchange {nodes : List Node}
    (hlinks : Links operator (Exchangeable part) text nodes rest) :
    Exchangeable (Links operator part) text nodes rest := by
  induction hlinks with
  | nil text => exact ⟨[], rfl, fun tail _ => .nil tail⟩
  | cons hblanks hkeyword hnode _ ih =>
      obtain ⟨before, rfl, hbefore⟩ := hblanks.exchange
      obtain ⟨word, rfl, hword⟩ := hkeyword.exchange
      obtain ⟨middle, rfl, hmiddle⟩ := hnode
      obtain ⟨taken, rfl, htaken⟩ := ih
      refine ⟨before ++ (word ++ (middle ++ taken)), by simp, ?_⟩
      intro tail halike
      have hafter := halike.append taken
      have hstart := hafter.append middle
      have hlinks := Links.cons (hbefore _ (hstart.append word)) (hword _ hstart)
        (hmiddle _ hafter) (htaken tail halike)
      simpa using hlinks

theorem Chain.exchange {node : Node}
    (hchain : Chain operator (Exchangeable part) text node rest) :
    Exchangeable (Chain operator part) text node rest := by
  cases hchain with
  | one hfirst =>
      obtain ⟨taken, htext, htaken⟩ := hfirst
      exact ⟨taken, htext, fun tail halike => .one (htaken tail halike)⟩
  | several hfirst hlinks =>
      obtain ⟨middle, rfl, hmiddle⟩ := hfirst
      obtain ⟨taken, rfl, htaken⟩ := hlinks.exchange
      refine ⟨middle ++ taken, by simp, ?_⟩
      intro tail halike
      have hchain := Chain.several (hmiddle _ (halike.append taken)) (htaken tail halike)
      simpa using hchain

end

theorem Operand.exchange {text rest : List Char} {node : Node}
    (hoperand : Operand text node rest) : Exchangeable Operand text node rest := by
  refine Operand.induction (motive := Exchangeable Operand) ?_ ?_ ?_ hoperand
  · intro text inner rest hopen hclose
    obtain ⟨before, rfl, hbefore⟩ := hopen.exchange
    obtain ⟨inside, rfl, hinside⟩ := hclose.exchange
    refine ⟨before ++ '(' :: (inside ++ [')']), by simp, ?_⟩
    intro tail halike
    have hclosed := halike.cons ')'
    have hgroup := Operand.emptyGroup (hbefore _ ((hclosed.append inside).cons '('))
      (hinside _ hclosed)
    simpa using hgroup
  · intro text inner after rest node hopen hinner hclose
    obtain ⟨before, rfl, hbefore⟩ := hopen.exchange
    obtain ⟨inside, rfl, hinside⟩ := Chain.exchange (hinner.mono Chain.exchange)
    obtain ⟨behind, rfl, hbehind⟩ := hclose.exchange
    refine ⟨before ++ '(' :: (inside ++ (behind ++ [')'])), by simp, ?_⟩
    intro tail halike
    have hclosed := halike.cons ')'
    have hafter := hclosed.append behind
    have hgroup := Operand.parenthesized (hbefore _ ((hafter.append inside).cons '('))
      (hinside _ hafter) (hbehind _ hclosed)
    simpa using hgroup
  · intro text start middle rest device anchor hblanks hdevice hanchor
    obtain ⟨before, rfl, hbefore⟩ := hblanks.exchange
    obtain ⟨deviceChars, rfl, -, hdevice'⟩ := hdevice.exchange
    obtain ⟨anchorChars, rfl, -, hanchor'⟩ := hanchor.exchange
    refine ⟨before ++ (deviceChars ++ '@' :: anchorChars), by simp, ?_⟩
    intro tail halike
    have hmiddle := (halike.append anchorChars).cons '@'
    have hclause := Operand.clause (hbefore _ (hmiddle.append deviceChars))
      (hdevice' _ hmiddle.delimited) (hanchor' tail halike.delimited)
    simpa using hclause

theorem Rule.exchange {text rest : List Char} {node : Node} (hrule : Rule text node rest) :
    Exchangeable Rule text node rest :=
  Chain.exchange (hrule.mono fun hconjunction =>
    Chain.exchange (hconjunction.mono Operand.exchange))

end Grammar

end PlacementRules
