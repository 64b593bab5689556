import PlacementRules.Node

/-!
# The grammar of rule text

What a text says, production by production and without regard to how it is read:

    rule        = conjunction (blanks OR conjunction)*
    conjunction = operand (blanks AND operand)*
    operand     = blanks ( '(' blanks ')' | '(' rule blanks ')' | name '@' name )

A phrase relates a text to a value and to the rest of the text behind it.
-/

namespace PlacementRules

namespace Grammar

abbrev Phrase (α : Type) := List Char → α → List Char → Prop

/-- The text is over, or goes on with a line feed or with a return and a line feed. -/
inductive LineEnd : List Char → Prop
  | atEnd : LineEnd []
  | lineFeed (rest : List Char) : LineEnd ('\n' :: rest)
  | returnLineFeed (rest : List Char) : LineEnd ('\r' :: '\n' :: rest)

/--
The text is some blanks and comments and then `rest`.  A comment reaches up to the
end of its line, and is none if that end is a return without a line feed.
-/
inductive Blanks : (text rest : List Char) → Prop
  | none (text : List Char) : Blanks text text
  | blank {c : Char} {text rest : List Char} :
      c ∈ [' ', '\t', '\n', '\x0c', '\r'] → Blanks text rest →
      Blanks (c :: text) rest
  | comment {words after rest : List Char} :
      (∀ c ∈ words, c ≠ '\r' ∧ c ≠ '\n') → LineEnd after → Blanks after rest →
      Blanks ('#' :: (words ++ after)) rest

/-- The characters of bare names are letters and digits of ASCII and `_ - . :`. -/
def NameChar (c : Char) : Prop :=
  ('A' ≤ c ∧ c ≤ 'Z') ∨ ('a' ≤ c ∧ c ≤ 'z') ∨ ('0' ≤ c ∧ c ≤ '9') ∨
    c ∈ ['_', '-', '.', ':']

/-- The text is a longest run of name characters, not an empty one, and then `rest`. -/
structure Word (text word rest : List Char) : Prop where
  split : text = word ++ rest
  nonempty : word ≠ []
  nameChars : ∀ c ∈ word, NameChar c
  longest : ∀ c ∈ rest.head?, ¬ NameChar c

/-- The text is the inside of a quoted name with its closing quote, and then `rest`. -/
inductive Quoted : (text name rest : List Char) → Prop
  | close (rest : List Char) : Quoted ('"' :: rest) [] rest
  | quote {text name rest : List Char} :
      Quoted text name rest → Quoted ('\\' :: '"' :: text) ('"' :: name) rest
  | backslash {text name rest : List Char} :
      Quoted text name rest → Quoted ('\\' :: '\\' :: text) ('\\' :: name) rest
  | kept {c : Char} {text name rest : List Char} :
      c ≠ '"' → c ≠ '\\' → Quoted text name rest →
      Quoted ('\\' :: c :: text) ('\\' :: c :: name) rest
  | plain {c : Char} {text name rest : List Char} :
      c ≠ '"' → c ≠ '\\' → Quoted text name rest →
      Quoted (c :: text) (c :: name) rest

/-- A name, bare or between quotes.  A bare one may be spelled like a keyword. -/
inductive IsName : Phrase String
  | bare {text word rest : List Char} :
      Word text word rest → IsName text (String.ofList word) rest
  | quoted {text name rest : List Char} :
      Quoted text name rest → IsName ('"' :: text) (String.ofList name) rest

/-- The text is a keyword of the operator, in any letter case, and then `rest`. -/
def Keyword (operator : Operator) (text rest : List Char) : Prop :=
  ∃ word, Word text word rest ∧
    word.map Char.toLower = operator.keyword.toList.map Char.toLower

inductive Links (operator : Operator) (part : Phrase Node) : Phrase (List Node)
  | nil (text : List Char) : Links operator part text [] text
  | cons {text word start after rest : List Char} {node : Node} {more : List Node} :
      Blanks text word → Keyword operator word start → part start node after →
      Links operator part after more rest →
      Links operator part text (node :: more) rest

/-- One part, which stands for itself, or several in a row, which make one group. -/
inductive Chain (operator : Operator) (part : Phrase Node) : Phrase Node
  | one {text rest : List Char} {node : Node} :
      part text node rest → Chain operator part text node rest
  | several {text after rest : List Char} {first second : Node} {more : List Node} :
      part text first after → Links operator part after (second :: more) rest →
      Chain operator part text (.group operator (first :: second :: more)) rest

inductive Operand : Phrase Node
  | emptyGroup {text inner rest : List Char} :
      Blanks text ('(' :: inner) → Blanks inner (')' :: rest) →
      Operand text (.group .and []) rest
  | parenthesized {text inner after rest : List Char} {node : Node} :
      Blanks text ('(' :: inner) → Chain .or (Chain .and Operand) inner node after →
      Blanks after (')' :: rest) → Operand text node rest
  | clause {text start middle rest : List Char} {device anchor : String} :
      Blanks text start → IsName start device ('@' :: middle) →
      IsName middle anchor rest → Operand text (.clause ⟨device, anchor⟩) rest

abbrev Conjunction : Phrase Node := Chain .and Operand

abbrev Rule : Phrase Node := Chain .or Conjunction

/-- The whole text is a rule with nothing but blanks behind it. -/
def Derives (text : List Char) (node : Node) : Prop :=
  ∃ after, Rule text node after ∧ Blanks after []

/-! ## Leading blanks -/

theorem Blanks.trans {text middle rest : List Char} (hfirst : Blanks text middle)
    (hsecond : Blanks middle rest) : Blanks text rest := by
  induction hfirst with
  | none _ => exact hsecond
  | blank hc _ ih => exact .blank hc (ih hsecond)
  | comment hwords hend _ ih => exact .comment hwords hend (ih hsecond)

def AllowsBlanks (phrase : Phrase Node) : Prop :=
  ∀ (text start rest : List Char) (node : Node),
    Blanks text start → phrase start node rest → phrase text node rest

theorem Operand.allowsBlanks : AllowsBlanks Operand := by
  intro text start rest node hblanks hoperand
  cases hoperand with
  | emptyGroup hopen hclose => exact .emptyGroup (hblanks.trans hopen) hclose
  | parenthesized hopen hinner hclose =>
      exact .parenthesized (hblanks.trans hopen) hinner hclose
  | clause hstart hdevice hanchor =>
      exact .clause (hblanks.trans hstart) hdevice hanchor

theorem Chain.allowsBlanks {operator : Operator} {part : Phrase Node}
    (hpart : AllowsBlanks part) : AllowsBlanks (Chain operator part) := by
  intro text start rest node hblanks hchain
  cases hchain with
  | one hfirst => exact .one (hpart _ _ _ _ hblanks hfirst)
  | several hfirst hlinks => exact .several (hpart _ _ _ _ hblanks hfirst) hlinks

theorem Rule.allowsBlanks : AllowsBlanks Rule :=
  Chain.allowsBlanks (Chain.allowsBlanks Operand.allowsBlanks)

end Grammar

end PlacementRules
