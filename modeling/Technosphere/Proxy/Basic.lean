import Technosphere.Lib.Run
import Technosphere.Lib.SortedMap

namespace Proxy

inductive Direction
  | toServer
  | toClient
deriving DecidableEq

namespace Direction

def source (clientSock serverSock : ℕ) : Direction → ℕ
  | toServer => clientSock
  | toClient => serverSock

def sink (clientSock serverSock : ℕ) : Direction → ℕ
  | toServer => serverSock
  | toClient => clientSock

end Direction

structure ServerAddress where
  ip   : String
  port : ℤ
deriving DecidableEq

structure ConfigProxy where
  serverAddrs : List ServerAddress

-- What a `ClientBuffer` holds for one direction: the array that the reads fill, the buffer that the
-- writes send, and the number of bytes of the last read.
structure Channel where
  tempBuf : List UInt8
  buf     : List UInt8
  size    : ℕ

namespace Channel

def new (tempSize : ℕ) : Channel where
  tempBuf := .replicate tempSize 0
  buf     := []
  size    := 0

def fill (ch : Channel) (bytes : List UInt8) : Channel :=
  { ch with tempBuf := bytes ++ ch.tempBuf.drop bytes.length }

def setSize (ch : Channel) (size : ℕ) : Channel :=
  { ch with size := size }

def flushTempBuf (ch : Channel) : Channel :=
  { ch with buf := ch.buf ++ ch.tempBuf.take ch.size }

def clear (ch : Channel) : Channel :=
  { ch with buf := [] }

end Channel

-- `send` stands for `temp_send_buf`, `send_buf` and `recv_size`, and `recv` for `temp_recv_buf`,
-- `recv_buf` and `send_size`.
structure ClientBuffer where
  tempSize : ℕ
  send     : Channel
  recv     : Channel

namespace ClientBuffer

def new : ClientBuffer where
  tempSize := 10
  send     := .new 10
  recv     := .new 10

def channel (b : ClientBuffer) : Direction → Channel
  | .toServer => b.send
  | .toClient => b.recv

def modify (b : ClientBuffer) (d : Direction) (f : Channel → Channel) : ClientBuffer :=
  match d with
  | .toServer => { b with send := f b.send }
  | .toClient => { b with recv := f b.recv }

def flushTempSendBuf (b : ClientBuffer) : ClientBuffer :=
  b.modify .toServer Channel.flushTempBuf

def flushTempRecvBuf (b : ClientBuffer) : ClientBuffer :=
  b.modify .toClient Channel.flushTempBuf

end ClientBuffer

-- The asynchronous operations, with the sockets that are bound to their handlers. A read or write
-- is live if its socket was open when it was started. The bytes of a write are those that its
-- buffer had at that time.
inductive Operation
  | accept (sock : ℕ)
  | connect (srvAddr : ServerAddress) (clientSock serverSock : ℕ)
  | read (d : Direction) (clientSock serverSock : ℕ) (size : ℕ) (live : Bool)
  | write (d : Direction) (clientSock serverSock : ℕ) (bytes : List UInt8) (last live : Bool)
deriving DecidableEq

namespace Operation

def isAccept : Operation → Bool
  | accept _ => true
  | _        => false

def pair : Operation → Option (ℕ × ℕ)
  | accept _                   => none
  | connect _ c s              => (c, s)
  | read _ c s .. | write _ c s .. => (c, s)

end Operation

inductive ErrorCode
  | success
  | eof
  | failure
deriving DecidableEq

-- The server with the operations that are outstanding and the sockets it has closed, and the record
-- of what has happened: which server socket has been created for a client socket, and the bytes
-- that have been read from each socket and handed to it. Sockets are numbered in the order of their
-- creation.
structure ProxyServer where
  config     : ConfigProxy
  clients    : SortedMap ℕ ClientBuffer
  pending    : List Operation
  closed     : ℕ → Bool
  nextSocket : ℕ
  server     : ℕ → Option ℕ
  received   : ℕ → List UInt8
  handed     : ℕ → List UInt8

namespace ProxyServer

def init (config : ConfigProxy) : ProxyServer where
  config     := config
  clients    := ∅
  pending    := []
  closed _   := false
  nextSocket := 0
  server _   := none
  received _ := []
  handed _   := []

def start (p : ProxyServer) (o : Operation) : ProxyServer :=
  { p with pending := p.pending ++ [o] }

def complete (p : ProxyServer) (o : Operation) : ProxyServer :=
  { p with pending := p.pending.erase o }

def close (p : ProxyServer) (sock : ℕ) : ProxyServer :=
  { p with closed := Function.update p.closed sock true }

-- `clients_[client_sock]`, and the entry that this creates where there is none.
def buffer (p : ProxyServer) (clientSock : ℕ) : ClientBuffer :=
  (p.clients.find? clientSock).getD .new

def touch (p : ProxyServer) (clientSock : ℕ) : ProxyServer :=
  { p with clients := p.clients.insert clientSock .new }

def modify (p : ProxyServer) (clientSock : ℕ) (d : Direction) (f : Channel → Channel) :
    ProxyServer :=
  { p with clients := p.clients.set clientSock ((p.buffer clientSock).modify d f) }

def acceptClient (p : ProxyServer) (sock : ℕ) : ProxyServer :=
  p.start (.accept sock)

def newSocket (p : ProxyServer) : ℕ × ProxyServer :=
  (p.nextSocket, { p with nextSocket := p.nextSocket + 1 })

def run (p : ProxyServer) : ProxyServer :=
  let (listenSock, p) := p.newSocket
  p.acceptClient listenSock

-- `validIp` tells for which texts `from_string` throws no exception.
def connectToServer (validIp : String → Bool) (p : ProxyServer) (srvAddr : ServerAddress)
    (clientSock : ℕ) : Option ProxyServer :=
  if validIp srvAddr.ip then
    let (serverSock, p) := p.newSocket
    some <| { p with server := Function.update p.server clientSock (some serverSock) }.start
      (.connect srvAddr clientSock serverSock)
  else none

-- `rand` is the number that `rand()` returns. The number of servers is kept in an `int`, and a
-- remainder by zero is undefined.
def chooseServer (p : ProxyServer) (rand : ℕ) : Option ServerAddress :=
  let cntSrv := (BitVec.ofNat 32 p.config.serverAddrs.length).toInt
  let curSrv := (rand : ℤ).tmod cntSrv
  if cntSrv = 0 then none else p.config.serverAddrs[curSrv.toNat]?

def terminateClientServerConnection (p : ProxyServer) (clientSock serverSock : ℕ) : ProxyServer :=
  let p := p.close serverSock
  let p := { p with clients := p.clients.erase clientSock }
  p.close clientSock

-- `recvClientMessage` and `recvServerMessage`
def recvMessage (d : Direction) (p : ProxyServer) (clientSock serverSock : ℕ) : ProxyServer :=
  let p    := p.touch clientSock
  let b    := p.buffer clientSock
  let size := min (b.channel d).tempBuf.length b.tempSize
  p.start (.read d clientSock serverSock size (!p.closed (d.source clientSock serverSock)))

def recvClientMessage (p : ProxyServer) (clientSock serverSock : ℕ) : ProxyServer :=
  p.recvMessage .toServer clientSock serverSock

def recvServerMessage (p : ProxyServer) (clientSock serverSock : ℕ) : ProxyServer :=
  p.recvMessage .toClient clientSock serverSock

def hand (p : ProxyServer) (sock : ℕ) (bytes : List UInt8) : ProxyServer :=
  if p.closed sock then p
  else { p with handed := Function.update p.handed sock (p.handed sock ++ bytes) }

-- `sendClientMessage` and `sendServerMessage`
def sendMessage (d : Direction) (p : ProxyServer) (clientSock serverSock : ℕ) (last : Bool) :
    ProxyServer :=
  let p     := p.touch clientSock
  let bytes := ((p.buffer clientSock).channel d).buf
  let sock  := d.sink clientSock serverSock
  (p.hand sock bytes).start (.write d clientSock serverSock bytes last (!p.closed sock))

def sendClientMessage (p : ProxyServer) (clientSock serverSock : ℕ) (last : Bool) :
    ProxyServer :=
  p.sendMessage .toServer clientSock serverSock last

def sendServerMessage (p : ProxyServer) (clientSock serverSock : ℕ) (last : Bool) :
    ProxyServer :=
  p.sendMessage .toClient clientSock serverSock last

def acceptClientHandler (validIp : String → Bool) (p : ProxyServer) (clientSock : ℕ)
    (err : ErrorCode) (rand : ℕ) : Option ProxyServer :=
  if err ≠ .success then
    some <| { p with clients := p.clients.erase clientSock }.close clientSock
  else do
    let p := p.touch clientSock
    let srvAddr ← p.chooseServer rand
    let p ← p.connectToServer validIp srvAddr clientSock
    let (sock, p) := p.newSocket
    return p.acceptClient sock

def connectToServerHandler (p : ProxyServer) (clientSock serverSock : ℕ) (err : ErrorCode) :
    ProxyServer :=
  if err ≠ .success then p.terminateClientServerConnection clientSock serverSock
  else (p.recvClientMessage clientSock serverSock).recvServerMessage clientSock serverSock

-- `recvClientMessageHandler` and `recvServerMessageHandler`
def recvMessageHandler (d : Direction) (p : ProxyServer) (clientSock serverSock : ℕ)
    (err : ErrorCode) (size : ℕ) : ProxyServer :=
  if err ≠ .success ∧ err ≠ .eof then p.terminateClientServerConnection clientSock serverSock
  else
    let p := p.modify clientSock d (·.setSize size)
    let p := p.modify clientSock d (·.flushTempBuf)
    if err = .eof then
      if ((p.buffer clientSock).channel d).buf.length = 0 then
        p.terminateClientServerConnection clientSock serverSock
      else p.sendMessage d clientSock serverSock true
    else (p.sendMessage d clientSock serverSock false).recvMessage d clientSock serverSock

def recvClientMessageHandler (p : ProxyServer) (clientSock serverSock : ℕ) (err : ErrorCode)
    (recvSize : ℕ) : ProxyServer :=
  p.recvMessageHandler .toServer clientSock serverSock err recvSize

def recvServerMessageHandler (p : ProxyServer) (clientSock serverSock : ℕ) (err : ErrorCode)
    (sendSize : ℕ) : ProxyServer :=
  p.recvMessageHandler .toClient clientSock serverSock err sendSize

-- `sendClientMessageHandler` and `sendServerMessageHandler`
def sendMessageHandler (d : Direction) (p : ProxyServer) (clientSock serverSock : ℕ)
    (err : ErrorCode) (last : Bool) : ProxyServer :=
  if err ≠ .success ∨ last then p.terminateClientServerConnection clientSock serverSock
  else p.modify clientSock d (·.clear)

def sendClientMessageHandler (p : ProxyServer) (clientSock serverSock : ℕ) (err : ErrorCode)
    (last : Bool) : ProxyServer :=
  p.sendMessageHandler .toServer clientSock serverSock err last

def sendServerMessageHandler (p : ProxyServer) (clientSock serverSock : ℕ) (err : ErrorCode)
    (last : Bool) : ProxyServer :=
  p.sendMessageHandler .toClient clientSock serverSock err last

def receive (p : ProxyServer) (sock : ℕ) (bytes : List UInt8) : ProxyServer :=
  { p with received := Function.update p.received sock (p.received sock ++ bytes) }

-- What a read has done when its handler is called: the bytes are in the array that it was started
-- with, which is gone if the connection has been terminated since.
def deliver (d : Direction) (p : ProxyServer) (clientSock serverSock : ℕ) (bytes : List UInt8) :
    ProxyServer :=
  let sock := d.source clientSock serverSock
  let p    := p.receive sock bytes
  if p.closed sock then p else p.modify clientSock d (·.fill bytes)

end ProxyServer

-- The completion of an operation, whose handler is called. The bytes are those that a read has put
-- into its array, and the random number is for the choice of a server.
structure Event where
  operation : Operation
  err       : ErrorCode
  bytes     : List UInt8
  rand      : ℕ

namespace Event

-- An operation that was started on an open socket can complete in any way, also after the socket
-- has been closed, as it can have completed before.
def Valid (p : ProxyServer) (e : Event) : Prop :=
  e.operation ∈ p.pending ∧
  match e.operation with
  | .accept _ | .connect ..   => e.err ≠ .eof
  | .write _ _ _ _ _ live     => e.err ≠ .eof ∧ (live = false → e.err = .failure)
  | .read _ _ _ size live     => (live = false → e.err = .failure) ∧
    if e.err = .success then e.bytes ≠ [] ∧ e.bytes.length ≤ size else e.bytes = []

instance {p : ProxyServer} : (e : Event) → Decidable (e.Valid p)
  | { operation := .accept .., .. } | { operation := .connect .., .. }
  | { operation := .write .., .. }  | { operation := .read .., .. } =>
    inferInstanceAs (Decidable (_ ∧ _))

def exec (validIp : String → Bool) (p : ProxyServer) (e : Event) : Option ProxyServer :=
  let p := p.complete e.operation
  match e.operation with
  | .accept sock               => p.acceptClientHandler validIp sock e.err e.rand
  | .connect _ c s             => p.connectToServerHandler c s e.err
  | .read .toServer c s _ _    =>
    (p.deliver .toServer c s e.bytes).recvClientMessageHandler c s e.err e.bytes.length
  | .read .toClient c s _ _    =>
    (p.deliver .toClient c s e.bytes).recvServerMessageHandler c s e.err e.bytes.length
  | .write .toServer c s _ l _ => p.sendClientMessageHandler c s e.err l
  | .write .toClient c s _ l _ => p.sendServerMessageHandler c s e.err l

end Event

-- When a handler throws an exception, `run` ends.
def Step (validIp : String → Bool) (p : ProxyServer) (e : Event) (p' : ProxyServer) : Prop :=
  e.Valid p ∧ e.exec validIp p = some p'

end Proxy
