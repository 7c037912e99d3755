import Rearrange.Shape
import Rearrange.Reduction
/-!
# Shape rules of the primitive operations

The shape that each primitive array operation produces from the shapes it is given, or why it
refuses them: reshape keeps the number of elements and wants positive dimensions; join
concatenates the dimensions of operands of one element type; reduce drops one axis; transpose
reorders the axes by a permutation; repeat inserts a new axis; merge collapses contiguous runs
of axes into single dimensions. Element counts are products of signed 64-bit words, so they
wrap around exactly as the sizes of shapes do.
-/
namespace Rearrange.Shape

/-- Reductions that need arithmetic, and so are not defined for booleans. -/
def isNumberReduction : Reduction → Bool
  | .sum | .mean | .prod => true
  | _ => false

/-- Reductions that only need an order. -/
def isOrderReduction : Reduction → Bool
  | .min | .max => true
  | _ => false

/-- An axis in `[-rank, rank)` as a position from the start. -/
def adjustAxis (axis rank : Int) : Except Failure Nat :=
  if axis < -rank || axis ≥ rank then
    .error (.plain ("axis " ++ toString axis ++ " is out of range for the rank " ++ toString rank))
  else .ok (if axis < 0 then (axis + rank).toNat else axis.toNat)

/-- The shape with other dimensions, keeping the number of elements. -/
def reshape (s : Shape) (dims : List Int) : Except Failure Shape :=
  if !s.ok then .error (.plain ("Reshape() requires a valid operand, got " ++ s.text))
  else
    match (dims.zipIdx.find? fun (d, _) => d ≤ 0) with
    | some (d, axis) =>
      .error (.plain ("Reshape(" ++ s.text ++ ", " ++ Text.intsText dims ++ ") got invalid dimension " ++
        toString d ++ " for axis " ++ toString axis ++ ", it must be positive"))
    | none =>
      let size := Word.product dims
      if size ≠ s.size then
        .error (.plain ("Reshape(" ++ s.text ++ ", " ++ Text.intsText dims ++
          ") must preserve the number of elements, but " ++ toString s.size ++ " != " ++ toString size))
      else .ok (s.withDims dims)

/-- The shape of the outer product of the operands: their dimensions one after the other. -/
def join (operands : List Shape) : Except Failure Shape :=
  match operands with
  | [] => .error (.plain "Join() requires at least one operand")
  | first :: _ =>
    let check := operands.zipIdx.findSome? fun (s, i) =>
      if !s.ok then some ("Join() got an invalid shape for operand #" ++ toString i)
      else if s.dtype != first.dtype then
        some ("Join() requires all operands to have the same dtype, got " ++ first.dtype.name ++
          " for operand #0 and " ++ s.dtype.name ++ " for operand #" ++ toString i)
      else none
    match check with
    | some m => .error (.plain m)
    | none => Shape.make first.dtype (operands.flatMap (·.dims))

/-- The shape with one axis collapsed by a reduction; a negative axis counts from the end. -/
def reduce (s : Shape) (axis : Int) (op : Reduction) : Except Failure Shape :=
  if !isNumberReduction op && !isOrderReduction op then
    .error (.plain ("Reduce() requires a reduction operation, got " ++ op.name))
  else if s.dtype = .bool && isNumberReduction op then
    .error (.plain ("Reduce(" ++ op.name ++ ") is not defined for booleans (operand " ++ s.text ++ ")"))
  else
    match adjustAxis axis s.rank with
    | .error f => .error (f.withContext ("invalid axis for Reduce(" ++ s.text ++ ", " ++ toString axis ++ ")"))
    | .ok a => .ok (s.withDims (s.dims.eraseIdx a))

/-- The first fault of a permutation of `rank` axes, read in increasing order of the axes it
names: an axis out of range, or one named twice. -/
def permutationFault (s : Shape) (perm : List Int) : Option String :=
  let sorted := perm.mergeSort (fun a b => decide (a ≤ b))
  let rec go : Option Int → List Int → Option String
    | _, [] => none
    | prev, a :: rest =>
      if a < 0 || a ≥ s.rank then
        some ("invalid permutation axis " ++ toString a ++ " given to Transpose(" ++ s.text ++
          "), it must be within the range of its rank")
      else if prev = some a then
        some ("invalid permutation given to Transpose(" ++ s.text ++ ", " ++ Text.intsText perm ++
          "), there cannot be any repeated axis, each must appear exactly once")
      else go (some a) rest
  go none sorted

/-- The shape with its axes reordered: output axis `i` is axis `perm[i]` of the operand. -/
def transpose (s : Shape) (perm : List Int) : Except Failure Shape :=
  if perm.length ≠ s.rank then
    .error (.plain ("Transpose() requires all axes permutation to be defined, operand has shape " ++
      s.text ++ ", but " ++ toString perm.length ++ " permutation were given"))
  else if s.rank = 0 then .ok s
  else match permutationFault s perm with
    | some m => .error (.plain m)
    | none => .ok (s.withDims (perm.map fun a => s.dims.getD a.toNat 0))

/-- Whether a permutation leaves every axis in place. -/
def isIdentityPermutation (perm : List Int) : Bool :=
  perm.zipIdx.all fun (a, i) => a = i

/-- The shape with a new axis of `count` elements inserted before axis `axis`. -/
def «repeat» (s : Shape) (axis count : Int) : Except Failure Shape :=
  if axis < 0 || axis > s.rank then
    .error (.plain ("Repeat(" ++ s.text ++ ") got axis " ++ toString axis ++
      ", it must be in the range [0, " ++ toString s.rank ++ "]"))
  else if count ≤ 0 then
    .error (.plain ("Repeat(" ++ s.text ++ ") got count " ++ toString count ++ ", it must be positive"))
  else .ok (s.withDims (s.dims.insertIdx axis.toNat count))

/-- The dimension of a run of axes: the wrapped product of their dimensions. -/
def runDim (dims : List Int) (start stop : Nat) : Int :=
  Word.product ((dims.drop start).take (stop - start))

/-- The shape with each group, a half-open run of axes, merged into one dimension. The groups
must follow each other and cover all axes; an empty group makes a dimension of 1. -/
def merge (s : Shape) (groups : List (Int × Int)) : Except Failure Shape :=
  let rec go : Nat → Int → List (Int × Int) → List Int → Except Failure Shape
    | _, next, [], acc =>
      if next ≠ s.rank then
        .error (.plain ("Merge(" ++ s.text ++ ", " ++ Text.bracketed (groups.map fun g => Text.intsText [g.1, g.2]) ++
          ") must cover all axes, but axes from " ++ toString next ++ " are left out"))
      else .ok (s.withDims acc.reverse)
    | i, next, (start, stop) :: rest, acc =>
      if start ≠ next || stop < start || stop > s.rank then
        .error (.plain ("Merge(" ++ s.text ++ ") got invalid group #" ++ toString i ++ " " ++
          Text.intsText [start, stop] ++ ": groups must be contiguous ranges covering all axes in order"))
      else go (i + 1) stop rest (runDim s.dims start.toNat stop.toNat :: acc)
  go 0 0 groups []

end Rearrange.Shape
