/-!
# Positions in a source text

Lines and columns count from one, and a column counts bytes of the UTF-8 text, so a character of
several bytes moves it by more than one.
-/
namespace GotoLang

structure Span where
  line : Nat
  column : Nat
deriving DecidableEq, Inhabited

namespace Span

def start : Span := ⟨1, 1⟩

/-- The position behind one character. -/
def advance (pos : Span) (c : Char) : Span :=
  if c = '\n' then ⟨pos.line + 1, 1⟩ else ⟨pos.line, pos.column + c.utf8Size⟩

def advanceBy (pos : Span) (cs : List Char) : Span :=
  cs.foldl advance pos

/-- The written form of a position, as in `3:14`. -/
def text (pos : Span) : String :=
  s!"{pos.line}:{pos.column}"

@[simp] theorem advanceBy_nil (pos : Span) : pos.advanceBy [] = pos := rfl

@[simp] theorem advanceBy_cons (pos : Span) (c : Char) (cs : List Char) :
    pos.advanceBy (c :: cs) = (pos.advance c).advanceBy cs := rfl

@[simp] theorem advanceBy_append (pos : Span) (cs ds : List Char) :
    pos.advanceBy (cs ++ ds) = (pos.advanceBy cs).advanceBy ds := by
  simp [advanceBy]

end Span

end GotoLang
