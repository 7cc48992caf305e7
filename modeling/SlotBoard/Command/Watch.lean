/-!
Which changes of a file call for lowering again.
-/
namespace SlotBoard

/-- What can happen to a file, in the order of the bits of an event mask. -/
inductive FileEvent where
  | created
  | written
  | removed
  | renamed
  | modeChanged
deriving DecidableEq

namespace FileEvent

def bit : FileEvent → Nat
  | created => 0
  | written => 1
  | removed => 2
  | renamed => 3
  | modeChanged => 4

def changesContent : FileEvent → Bool
  | created | written | renamed => true
  | removed | modeChanged => false

def all : List FileEvent := [created, written, removed, renamed, modeChanged]

def isRelevant (mask : Nat) : Bool :=
  all.any fun event => event.changesContent && mask.testBit event.bit

end FileEvent
end SlotBoard
