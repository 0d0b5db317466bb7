import Hpps.Common.Stop

/-! Messages between actors, and the actor a message is forwarded to. -/
namespace Hpps.Frame

/-- The type of a message is an int of its header; a reply has the opposite one. -/
abbrev MsgType := ℤ

namespace MsgType

def Request_Get : MsgType := 1
def Request_Add : MsgType := 2
def Reply_Get : MsgType := -1
def Reply_Add : MsgType := -2
def Load_Model : MsgType := 29
def Store_Model : MsgType := 30
def Reply_Load_Model : MsgType := -29
def Reply_Store_Model : MsgType := -30
def Control_Barrier : MsgType := 33
def Control_Reply_Barrier : MsgType := -33
def Control_Register : MsgType := 34
def Control_Reply_Register : MsgType := -34

end MsgType

/-- A message whose blobs are of type `β`. Fields that the sender does not set are `0` here. -/
structure Message (β : Type) where
  src : ℤ
  dst : ℤ
  type : MsgType
  tableId : ℕ := 0
  msgId : ℕ := 0
  data : List β := []
  deriving DecidableEq, Repr

def Message.createReplyMessage {β : Type} (m : Message β) : Message β where
  src := m.dst
  dst := m.src
  type := -m.type
  tableId := m.tableId
  msgId := m.msgId

inductive Actor
  | server
  | worker
  | controller
  | zoo
  deriving DecidableEq, Repr

/-- Where `Communicator::LocalForward` puts a message of this type. -/
def localForward (type : MsgType) : Actor :=
  if 0 < type ∧ type < 32 then .server
  else if type < 0 ∧ -32 < type then .worker
  else if 32 < type then .controller
  else .zoo

/-- The rank of the node that runs the controller. -/
def kController : ℤ := 0

end Hpps.Frame
