/-! Ranges of bytes in a source text. -/
namespace LittleMan

structure Span where
  offset : Nat
  length : Nat
  deriving DecidableEq, Repr, Inhabited

namespace Span

/-- One past the last byte. -/
def stop (s : Span) : Nat := s.offset + s.length

def isEmpty (s : Span) : Bool := s.length == 0

/-- Covers both spans and everything between them. -/
def join (a b : Span) : Span :=
  ⟨min a.offset b.offset, max a.stop b.stop - min a.offset b.offset⟩

theorem stop_join (a b : Span) : (a.join b).stop = max a.stop b.stop := by
  simp only [join, stop]; omega

end Span

end LittleMan
