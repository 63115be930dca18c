import MatlabDocs.Text.Basic

/-!
# Tokens

MATLAB code is read as a list of tokens. A token is a piece of the code with the kind of
thing that it is.
-/

namespace MatlabDocs

inductive TokenKind where
  | keyword
  | name
  | builtinName
  | functionName
  | comment
  | blockComment
  | operator
  | punctuation
  | text
  | whitespace
  | error
  | string
  | shellCommand
  | integer
  | float
  deriving DecidableEq, Repr

structure Token where
  kind : TokenKind
  value : Text
  deriving DecidableEq, Repr

namespace TokenKind

/-- The dotted name of a kind; a kind under another one starts with its name. -/
def label : TokenKind → Text
  | keyword => "Keyword"
  | name => "Name"
  | builtinName => "Name.Builtin"
  | functionName => "Name.Function"
  | comment => "Comment"
  | blockComment => "Comment.Multiline"
  | operator => "Operator"
  | punctuation => "Punctuation"
  | text => "Text"
  | whitespace => "Text.Whitespace"
  | error => "Error"
  | string => "Literal.String"
  | shellCommand => "Literal.String.Other"
  | integer => "Literal.Number.Integer"
  | float => "Literal.Number.Float"

def all : List TokenKind :=
  [keyword, name, builtinName, functionName, comment, blockComment, operator, punctuation, text,
   whitespace, error, string, shellCommand, integer, float]

def ofLabel? (label : Text) : Option TokenKind :=
  all.find? (·.label == label)

end TokenKind

namespace Token

def isKeyword (token : Token) (word : Text) : Bool :=
  token == ⟨.keyword, word⟩

def isPunctuation (token : Token) (sign : Text) : Bool :=
  token == ⟨.punctuation, sign⟩

def isOperator (token : Token) (sign : Text) : Bool :=
  token == ⟨.operator, sign⟩

def isComment (token : Token) : Bool :=
  token.kind == .comment

def isIndent (token : Token) : Bool :=
  token == ⟨.text, " "⟩ || token == ⟨.text, "\t"⟩

def isNewline (token : Token) : Bool :=
  (token.kind == .text || token.kind == .whitespace) && token.value == "\n"

/-- The keyword that starts a function, which may carry the white space in front of it. -/
def isFunctionKeyword (token : Token) : Bool :=
  token.kind == .keyword && token.value.strip == "function"

def concat (tokens : List Token) : Text :=
  tokens.flatMap Token.value

/-- What a comment says, without the percent signs in front. -/
def commentText (token : Token) : Text :=
  token.value.dropWhile (· == '%')

end Token

end MatlabDocs
