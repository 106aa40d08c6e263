import Javadoc.Error
import Javadoc.Text.Offset

/-! Edits of a text in byte offsets, and batches of them. A batch is checked as a whole and then
spliced in from front to back; a batch with a bad edit changes nothing. -/
namespace Javadoc

/-- A change to a text, in byte offsets of the text it was computed from. -/
inductive Edit where
  | insert (offset : Nat) (text : Text)
  | replace (start stop : Nat) (text : Text)
  deriving DecidableEq, Repr

namespace Edit

def start : Edit → Nat
  | insert offset _ => offset
  | replace start _ _ => start

def stop : Edit → Nat
  | insert offset _ => offset
  | replace _ stop _ => stop

def text : Edit → Text
  | insert _ text => text
  | replace _ _ text => text

def before (e f : Edit) : Bool := e.start < f.start || (e.start == f.start && e.stop ≤ f.stop)

/-- The edits in the order of their ranges. Those with equal ranges keep their order. -/
def ordered (edits : List Edit) : List Edit := edits.mergeSort before

def fault? (source : Text) (done : Nat) (e : Edit) : Option EditFault :=
  if e.stop < e.start || Text.size source < e.stop then
    some (.outside e.start e.stop (Text.size source))
  else if !(Text.isBoundary e.start source && Text.isBoundary e.stop source) then
    some (.splitsCharacter e.start e.stop)
  else if e.start < done then some (.overlaps e.start e.stop)
  else none

def firstFault? (source : Text) (done : Nat) : List Edit → Option EditFault
  | [] => none
  | e :: es =>
    match fault? source done e with
    | some fault => some fault
    | none => firstFault? source e.stop es

def splice (done : Nat) (rest : Text) : List Edit → Text
  | [] => rest
  | e :: es =>
    match Text.splitAtByte? (e.start - done) rest with
    | none => rest
    | some (gap, more) =>
      match Text.splitAtByte? (e.stop - e.start) more with
      | none => rest
      | some (_, after) => gap ++ e.text ++ splice e.stop after es

/-- Applies a batch of edits to a text. -/
def applyAll (source : Text) (edits : List Edit) : Except Error Text :=
  match firstFault? source 0 (ordered edits) with
  | some fault => .error (.invalidEdit fault)
  | none => .ok (splice 0 source (ordered edits))

end Edit

/-- A text and the path it belongs to. -/
structure Document where
  path : Text
  text : Text
  deriving DecidableEq, Repr

namespace Document

/-- Applies a batch of edits to the document; gives their number as well. -/
def commit (d : Document) (edits : List Edit) : Except Error (Nat × Document) :=
  match Edit.applyAll d.text edits with
  | .error e => .error e
  | .ok text => .ok (edits.length, { d with text })

end Document
end Javadoc
