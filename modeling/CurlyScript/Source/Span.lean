/-
  Spans: half-open ranges of BYTE offsets into a UTF-8 source text.

  Every offset that the library reports counts bytes, while the scanner walks over characters;
  `byteLength` is the bridge between the two.  A span is plain data: token streams and trees may
  be built by hand, so neither order of the ends nor agreement with a text is demanded here.
-/

namespace CurlyScript

/-- A range of byte offsets, `start` included and `stop` not. -/
structure Span where
  /-- The offset of the first byte. -/
  start : Nat
  /-- The offset just past the last byte. -/
  stop : Nat
deriving DecidableEq, Repr, Inhabited

namespace Span

/-- The empty span at the start of a text, for nodes that come from no text. -/
def none : Span := ⟨0, 0⟩

/-- The least span that covers both. -/
def merge (a b : Span) : Span := ⟨min a.start b.start, max a.stop b.stop⟩

end Span

-- The zero of a sum is the literal one, whichever other structure on `Nat` is in scope.
attribute [local instance (high)] Zero.ofOfNat0

/-- The number of bytes that the characters take in UTF-8. -/
def byteLength (cs : List Char) : Nat := (cs.map Char.utf8Size).sum

@[simp] theorem byteLength_nil : byteLength [] = 0 := rfl

@[simp] theorem byteLength_cons (c : Char) (cs : List Char) :
    byteLength (c :: cs) = c.utf8Size + byteLength cs := by simp [byteLength]

theorem byteLength_append (cs ds : List Char) :
    byteLength (cs ++ ds) = byteLength cs + byteLength ds := by simp [byteLength]

end CurlyScript
