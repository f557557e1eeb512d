import LittleMan.Source.Token
import LittleMan.Text.Pieces

/-! Lines of code: those that hold a word once comments are gone. Each takes up one address. -/
namespace LittleMan.Source

structure Line where
  first : Lexeme
  rest : List Lexeme
  deriving DecidableEq, Repr

namespace Line

def words (l : Line) : List Lexeme := l.first :: l.rest

def ofWords? : List Lexeme → Option Line
  | [] => none
  | w :: ws => some ⟨w, ws⟩

/-- From the first word to the last. -/
def span (l : Line) : Span :=
  l.first.span.join (l.words.getLast (by simp [words])).span

end Line

/-- The words between newlines. -/
def wordRows : List Token → List (List Lexeme)
  | [] => [[]]
  | t :: ts =>
    match t.kind with
    | .newline => [] :: wordRows ts
    | .word => Text.consFirst t.toLexeme (wordRows ts)
    | .comment | .blank => wordRows ts

def lines (src : String) : List Line := (wordRows (tokens src)).filterMap Line.ofWords?

end LittleMan.Source
