import AffineLoops.Fault
import AffineLoops.Grid.Basic
import AffineLoops.Grid.Keystream
/-!
# Random grids

The cells of a random grid are drawn one after the other from the keystream of its seed, each of
them uniform on the integers from zero up to a maximum.

## Main definitions

- `Keystream.draw` — one value below a bound, by multiplication and rejection
- `Grid.random` — the grid of a seed

## Design notes

Multiplying a 64-bit word by the size of the range gives the value in the high half of the product.
Words whose low half lies above the last full multiple of the range are rejected, which makes all
values equally likely. The number of rejections in a row is limited so that the draw always ends;
a word is rejected with probability below one half.
-/

namespace AffineLoops

namespace Keystream

/-- The greatest low half that is accepted for a range of the given size. -/
def zone (size : Nat) : Nat :=
  size <<< (63 - size.log2) - 1

/-- A value below `size`, drawn with at most so many rejections. -/
def draw (size : Nat) : Nat → Keystream → Nat × Keystream
  | 0, k =>
    let (w, k) := k.next
    (w.toNat * size / UInt64.size, k)
  | rejections + 1, k =>
    let (w, k) := k.next
    let product := w.toNat * size
    if product % UInt64.size ≤ zone size then (product / UInt64.size, k) else draw size rejections k

/-- How many words in a row may be rejected. -/
def maxRejections : Nat := 4096

/-- So many values below `size`, appended to those drawn before. -/
def drawCells (size : Nat) : Nat → Array Cell → Keystream → Array Cell
  | 0, cells, _ => cells
  | n + 1, cells, k =>
    let (value, k) := draw size maxRejections k
    drawCells size n (cells.push (Int64.ofNat value)) k

end Keystream

/-- The grid whose cells are drawn from zero up to `maximum` with the given seed. -/
def Grid.random (shape : Domain) (seed : UInt64) (maximum : Cell) : Except Fault Grid :=
  if maximum < 0 then .error .emptyRange
  else
    let size := maximum.toInt.toNat + 1
    .ok ⟨shape, Keystream.drawCells size shape.size (Array.mkEmpty shape.size)
      (Keystream.ofSeed seed)⟩

end AffineLoops
