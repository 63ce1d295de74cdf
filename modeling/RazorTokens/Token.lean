/-!
This module contains the catalogue of tokens that a scan can produce, the table with which the
host says which of them it would accept, and the outcome of a scan.
-/

namespace RazorTokens

structure Symbol where
  index : Nat
  deriving DecidableEq, Repr

instance : LT Symbol where
  lt a b := a.index < b.index

instance (a b : Symbol) : Decidable (a < b) :=
  inferInstanceAs (Decidable (a.index < b.index))

/--
How many symbols belong to the embedded scanner. They are the lowest ones.
-/
def embeddedSymbolCount : Nat := 12

def Symbol.isEmbedded (s : Symbol) : Bool :=
  s.index < embeddedSymbolCount

inductive RawElement where
  | script
  | style
  | title
  | textarea
  deriving DecidableEq, Repr

namespace RawElement

def all : List RawElement :=
  [script, style, title, textarea]

def letters : RawElement → List Char
  | script => ['s', 'c', 'r', 'i', 'p', 't']
  | style => ['s', 't', 'y', 'l', 'e']
  | title => ['t', 'i', 't', 'l', 'e']
  | textarea => ['t', 'e', 'x', 't', 'a', 'r', 'e', 'a']

def tag (e : RawElement) : String :=
  String.ofList e.letters

theorem map_tag_all : all.map tag = ["script", "style", "title", "textarea"] := by
  decide

end RawElement

/--
The tokens that the template scanner produces itself.
-/
inductive Kind where
  /-- Text in which some `@` stands for itself, as in an e-mail address. -/
  | textWithAt
  | markupText
  /-- An `@` with a brace. -/
  | codeBlockStart
  /-- An `@` with a parenthesis. -/
  | expressionStart
  | blockOpen
  | regionClose
  | comment
  | directive
  | rawText (element : RawElement)
  deriving DecidableEq, Repr

namespace Kind

def all : List Kind :=
  [textWithAt, markupText, codeBlockStart, expressionStart, blockOpen, regionClose, comment,
   directive] ++ RawElement.all.map rawText

def rank : Kind → Nat
  | textWithAt => 0
  | markupText => 1
  | codeBlockStart => 2
  | expressionStart => 3
  | blockOpen => 4
  | regionClose => 5
  | comment => 6
  | directive => 7
  | rawText .script => 8
  | rawText .style => 9
  | rawText .title => 10
  | rawText .textarea => 11

/--
The symbols of the kinds follow those of the embedded scanner.
-/
def symbol (k : Kind) : Symbol :=
  ⟨embeddedSymbolCount + k.rank⟩

def ofSymbol? (s : Symbol) : Option Kind :=
  if s.isEmbedded then none else all[s.index - embeddedSymbolCount]?

def name : Kind → String
  | textWithAt => "TEXT_WITH_LITERAL_AT"
  | markupText => "HTML_TEXT_CONTENT"
  | codeBlockStart => "CSHARP_CODE_BLOCK_START"
  | expressionStart => "CSHARP_EXPLICIT_EXPR_START"
  | blockOpen => "RAZOR_BLOCK_OPEN"
  | regionClose => "CSHARP_CONTEXT_CLOSE"
  | comment => "CSHARP_COMMENT"
  | directive => "CSHARP_PREPROC"
  | rawText .script => "SCRIPT_CONTENT"
  | rawText .style => "STYLE_CONTENT"
  | rawText .title => "TITLE_CONTENT"
  | rawText .textarea => "TEXTAREA_CONTENT"

instance : ToString Kind where
  toString := name

def ofName? (s : String) : Option Kind :=
  all.find? (·.name == s)

@[simp]
theorem ofSymbol?_symbol (k : Kind) : ofSymbol? k.symbol = some k := by
  cases k with
  | rawText e => cases e <;> rfl
  | _ => rfl

/--
The numbers and names by which the grammar refers to the kinds.
-/
theorem map_symbol_name_all
    : all.map (fun k => (k.symbol.index, k.name))
        =
      [(12, "TEXT_WITH_LITERAL_AT"), (13, "HTML_TEXT_CONTENT"), (14, "CSHARP_CODE_BLOCK_START"),
        (15, "CSHARP_EXPLICIT_EXPR_START"), (16, "RAZOR_BLOCK_OPEN"), (17, "CSHARP_CONTEXT_CLOSE"),
        (18, "CSHARP_COMMENT"), (19, "CSHARP_PREPROC"), (20, "SCRIPT_CONTENT"),
        (21, "STYLE_CONTENT"), (22, "TITLE_CONTENT"), (23, "TEXTAREA_CONTENT")] := by
  rfl

@[simp]
theorem ofName?_name (k : Kind) : ofName? k.name = some k := by
  cases k with
  | rawText e => cases e <;> decide
  | _ => decide

end Kind

def symbolCount : Nat :=
  embeddedSymbolCount + Kind.all.length

/--
The symbols that the host would accept at some place, as a table indexed by symbol. A symbol beyond
the table is not accepted.
-/
structure Admissible where
  table : List Bool
  deriving DecidableEq, Repr

namespace Admissible

def contains (adm : Admissible) (s : Symbol) : Bool :=
  adm.table[s.index]?.getD false

def allows (adm : Admissible) (k : Kind) : Bool :=
  adm.contains k.symbol

def ofSymbols (symbols : List Symbol) : Admissible :=
  ⟨(List.range symbolCount).map fun i => symbols.contains ⟨i⟩⟩

def kinds (adm : Admissible) : List Kind :=
  Kind.all.filter adm.allows

def rawElement? (adm : Admissible) : Option RawElement :=
  RawElement.all.find? fun e => adm.allows (.rawText e)

end Admissible

inductive Outcome where
  | commit (symbol : Symbol)
  | decline
  deriving DecidableEq, Repr

namespace Outcome

def ofKind (k : Kind) : Outcome :=
  commit k.symbol

def symbol? : Outcome → Option Symbol
  | commit s => some s
  | decline => none

def isCommit (o : Outcome) : Bool :=
  o.symbol?.isSome

def kind? (o : Outcome) : Option Kind :=
  o.symbol?.bind Kind.ofSymbol?

end Outcome
end RazorTokens
