import LittleMan.Span
import LittleMan.Text.Blank
import LittleMan.Text.Bytes

/-! Tokens of a source text: words, comments, blanks and newlines, with the bytes they cover. -/
namespace LittleMan.Source

/-- A part of the text and where it stands. -/
structure Lexeme where
  text : String
  span : Span
  deriving DecidableEq, Repr

inductive TokenKind
  | word
  /-- From a semicolon to the end of its line. -/
  | comment
  | blank
  | newline
  deriving DecidableEq, Repr

namespace TokenKind

def ofFirst (c : Char) : TokenKind :=
  if c = ';' then comment
  else if c = '\n' then newline
  else if Text.isBlank c then blank
  else word

/-- Whether a token of this kind runs on over the character. -/
def extendsOver : TokenKind → Char → Bool
  | word, c => !Text.isBlank c && c != ';'
  | comment, c => c != '\n'
  | blank, c => c != '\n' && Text.isBlank c
  | newline, _ => false

end TokenKind

structure Token extends Lexeme where
  kind : TokenKind
  deriving DecidableEq, Repr

/-- Tokens of the text that begins at the given byte, each as long as its kind allows. -/
def tokensFrom (offset : Nat) : List Char → List Token
  | [] => []
  | c :: cs =>
    let kind := TokenKind.ofFirst c
    let taken := c :: cs.takeWhile kind.extendsOver
    let span := ⟨offset, Text.byteLength taken⟩
    ⟨⟨String.ofList taken, span⟩, kind⟩ :: tokensFrom span.stop (cs.dropWhile kind.extendsOver)
termination_by cs => cs.length
decreasing_by
  have := (List.dropWhile_sublist (TokenKind.ofFirst c).extendsOver (l := cs)).length_le
  simp only [List.length_cons]; omega

def tokens (src : String) : List Token := tokensFrom 0 src.toList

end LittleMan.Source
