import Rearrange.Text.Quoted
import Rearrange.Text.Case
/-!
# Errors

A compile or run of a pattern fails with an `Error`: a kind from a fixed list, the pattern
it concerns, the byte offset where it was found (negative when none applies), a message and,
for failures of a backend, the text of the failure that caused it. `Error.message` writes all of
it in one line.

`Failure` is what any operation of the library may end with: a classified `Error`, a plain
message from a lower layer (shape rules, tensors, programs, the cache), an abort with a message
(`panic`), or one of those with a note written in front.
-/
namespace Rearrange

/-- Kinds of compile and run errors, in their fixed enumeration order from 0. A code outside
the list has no name of its own. -/
inductive ErrorKind where
  | unexpectedToken | missingArrow | unbalancedGroup | invalidSize | anonymousSizeNotAllowed
  | ellipsisInGroupNotAllowed | ambiguousDerivedSize | arityMismatch | duplicateAxisName
  | referenceToReducedAxis | unresolvedAxisNeedsSize | axisNotInOutput | ellipsisSideMismatch
  | rankMismatch | sizeMismatch | shapeNotDivisible | dtypeMismatch | planInconsistent
  | backendFailure
  | unnamed (code : Int)
  deriving DecidableEq, Repr, Inhabited

namespace ErrorKind

/-- The named kinds in enumeration order. -/
def named : List ErrorKind :=
  [unexpectedToken, missingArrow, unbalancedGroup, invalidSize, anonymousSizeNotAllowed,
   ellipsisInGroupNotAllowed, ambiguousDerivedSize, arityMismatch, duplicateAxisName,
   referenceToReducedAxis, unresolvedAxisNeedsSize, axisNotInOutput, ellipsisSideMismatch,
   rankMismatch, sizeMismatch, shapeNotDivisible, dtypeMismatch, planInconsistent,
   backendFailure]

/-- The names of the named kinds, in enumeration order. -/
def names : List String :=
  ["UnexpectedToken", "MissingArrow", "UnbalancedGroup", "InvalidSize",
   "AnonymousSizeNotAllowed", "EllipsisInGroupNotAllowed", "AmbiguousDerivedSize",
   "ArityMismatch", "DuplicateAxisName", "ReferenceToReducedAxis", "UnresolvedAxisNeedsSize",
   "AxisNotInOutput", "EllipsisSideMismatch", "RankMismatch", "SizeMismatch",
   "ShapeNotDivisible", "DTypeMismatch", "PlanInconsistent", "BackendFailure"]

/-- The enumeration code of a kind. -/
def code : ErrorKind → Int
  | unnamed n => n
  | k => named.idxOf k

/-- The kind with the given code. -/
def ofCode (n : Int) : ErrorKind :=
  if n < 0 then unnamed n else (named[n.toNat]?).getD (unnamed n)

/-- The name of a kind; a code without a name is written `ErrorKind(n)`. -/
def name (k : ErrorKind) : String :=
  match k with
  | unnamed n => "ErrorKind(" ++ toString n ++ ")"
  | _ => (names[(named.idxOf k)]?).getD ""

/-- The kind whose name matches, as written or in lower case. -/
def ofName? (s : String) : Option ErrorKind :=
  (Text.findName? names s).bind (named[·]?)

def isNamed (k : ErrorKind) : Bool := 0 ≤ k.code && k.code < named.length

end ErrorKind

/-- A classified error of a pattern's compile or run. -/
structure Error where
  kind : ErrorKind
  pattern : String
  /-- Byte offset in the pattern, or a negative number when no position applies. -/
  pos : Int
  msg : String
  /-- Text of the failure that caused this one, if any. -/
  cause : Option String := none
  deriving Repr, Inhabited

namespace Error

/-- The one-line text: kind, message and cause, then the offset and the quoted pattern when
they are known. -/
def message (e : Error) : String :=
  let base := e.kind.name ++ ": " ++ e.msg
  let withCause := match e.cause with
    | some c => base ++ ": " ++ c
    | none => base
  if e.pattern == "" then withCause
  else if 0 ≤ e.pos then
    withCause ++ " (at offset " ++ toString e.pos ++ " of " ++ Text.quote e.pattern ++ ")"
  else withCause ++ " (pattern " ++ Text.quote e.pattern ++ ")"

end Error

/-- How an operation of the library fails. -/
inductive Failure where
  /-- A classified error. -/
  | tagged (e : Error)
  /-- A failure with a message only. -/
  | plain (msg : String)
  /-- An abort: the operation was given something it does not accept at all. -/
  | panic (msg : String)
  /-- An abort that the machine raises by itself: an index outside a list, a slice bound past
  its capacity, a block of memory too large to reserve. -/
  | fault (msg : String)
  /-- A failure with a note written in front of its message. -/
  | context (note : String) (inner : Failure)
  deriving Repr, Inhabited

namespace Failure

/-- The one-line text of a failure. -/
def message : Failure → String
  | tagged e => e.message
  | plain m => m
  | panic m => m
  | fault m => m
  | context note inner => note ++ ": " ++ inner.message

/-- The kind of the classified error inside, if there is one. -/
def kind? : Failure → Option ErrorKind
  | tagged e => some e.kind
  | context _ inner => inner.kind?
  | _ => none

/-- Whether the failure is an abort. -/
def isPanic : Failure → Bool
  | panic _ | fault _ => true
  | _ => false

/-- Writes a note in front of a failure; an abort stays as it is. -/
def withContext (note : String) : Failure → Failure
  | panic m => panic m
  | fault m => fault m
  | f => context note f

/-- The fault of reading position `i` of a block of `length` elements; a negative position is
reported without the length. -/
def indexFault (i : Int) (length : Nat) : Failure :=
  if i < 0 then fault ("runtime error: index out of range [" ++ toString i ++ "]")
  else fault ("runtime error: index out of range [" ++ toString i ++ "] with length " ++ toString length)

/-- The fault, if any, of taking the elements from `lo` up to `hi` of a block with room for `room`
elements. The end is checked against the room first, then the start against the end; a
negative bound is reported alone. -/
def sliceFault? (lo hi : Int) (room : Nat) : Option Failure :=
  let bounds := fun (b : String) => some (fault ("runtime error: slice bounds out of range " ++ b))
  if hi < 0 then bounds ("[:" ++ toString hi ++ "]")
  else if hi > room then bounds ("[:" ++ toString hi ++ "] with capacity " ++ toString room)
  else if lo < 0 then bounds ("[" ++ toString lo ++ ":]")
  else if lo > hi then bounds ("[" ++ toString lo ++ ":" ++ toString hi ++ "]")
  else none

/-- The fault, if any, of taking the elements from `lo` up to `hi` of a block of `length` elements
with its room cut to its length, as deleting them does. The end is checked against the length
first, then the start against the end; a negative bound is reported alone. -/
def cutFault? (lo hi : Int) (length : Nat) : Option Failure :=
  let bounds := fun (b : String) => some (fault ("runtime error: slice bounds out of range " ++ b))
  if hi < 0 then bounds ("[:" ++ toString hi ++ ":]")
  else if hi > length then bounds ("[:" ++ toString hi ++ ":" ++ toString length ++ "]")
  else if lo < 0 then bounds ("[" ++ toString lo ++ "::]")
  else if lo > hi then bounds ("[" ++ toString lo ++ ":" ++ toString hi ++ ":]")
  else none

/-- The text of a failure caught while running a step: a fault of the machine is reported as a
runtime panic with an empty note in front of its message. -/
def recoveredText : Failure → String
  | fault m => "runtime panic: : " ++ m
  | f => f.message

end Failure

instance : Coe Error Failure := ⟨Failure.tagged⟩

end Rearrange
