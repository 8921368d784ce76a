import Technosphere.Lib.Journal
import Technosphere.Lib.SortedMap
import Technosphere.Lib.Run

namespace Chat

-- `'\n'` and `"Welcome\n"`
def newline : UInt8 := 10

def welcome : List UInt8 := [87, 101, 108, 99, 111, 109, 101, newline]

-- Sockets are the descriptors of the source. The keys of `message_buf_` have another integer type
-- there, to which they are converted without loss.
structure Server where
  listenSocket : ℤ
  maxBufSize   : ℕ
  messageBuf   : SortedMap ℤ (List UInt8)
  clients      : SortedSet ℤ

def Server.init (listenSocket : ℤ) : Server where
  listenSocket := listenSocket
  maxBufSize   := 1024
  messageBuf   := ∅
  clients      := ∅

-- The server with the sockets that `epoll` watches, and the record of what has happened: the bytes
-- that the calls of `recv` have returned and those that the calls of `send` have accepted for each
-- socket, and the journal of the messages with their senders, whose members are the connections.
structure World where
  server   : Server
  epoll    : SortedSet ℤ
  sends    : ℕ
  received : ℤ → List UInt8
  sent     : ℤ → List UInt8
  journal  : Journal ℤ (ℤ × List UInt8)

namespace World

def init (listenSocket : ℤ) : World where
  server     := .init listenSocket
  epoll      := (∅ : SortedSet ℤ).insert listenSocket ()
  sends      := 0
  received _ := []
  sent _     := []
  journal    := .empty

def message (w : World) (socket : ℤ) : List UInt8 :=
  (w.server.messageBuf.find? socket).getD []

def setMessage (w : World) (socket : ℤ) (message : List UInt8) : World :=
  { w with server := { w.server with messageBuf := w.server.messageBuf.set socket message } }

-- How many bytes a `send` accepts, by the number of the call and the number of bytes it is given.
-- On the descriptor -1 it fails.
def send (accepts : ℕ → ℕ → ℕ) (w : World) (socket : ℤ) (bytes : List UInt8) : World :=
  if socket < 0 then w
  else
    let accepted := bytes.take (accepts w.sends bytes.length)
    { w with
        sends := w.sends + 1
        sent  := Function.update w.sent socket (w.sent socket ++ accepted) }

def terminateConnection (w : World) (slaveSocket : ℤ) : World :=
  { w with
      server  := { w.server with
        clients    := w.server.clients.erase slaveSocket
        messageBuf := w.server.messageBuf.erase slaveSocket }
      epoll   := w.epoll.erase slaveSocket
      journal := w.journal.leave slaveSocket }

def append (w : World) (slaveSocket : ℤ) (bytes : List UInt8) : World :=
  { w.setMessage slaveSocket (w.message slaveSocket ++ bytes) with
    received := Function.update w.received slaveSocket (w.received slaveSocket ++ bytes) }

-- What `recv` returns is `none` for an error, and empty at the end of the stream.
def recvMessage (w : World) (slaveSocket : ℤ) : Option (List UInt8) → ℤ × World
  | none | some [] => (-1, w)
  | some bytes     =>
    let w := w.append slaveSocket bytes
    (if (w.message slaveSocket).getLast? = some newline then 1 else 0, w)

def sendChunk (accepts : ℕ → ℕ → ℕ) (w : World) (chunk : List UInt8) : World :=
  w.server.clients.keys.foldl (fun w client => w.send accepts client chunk) w

def sendLoop (accepts : ℕ → ℕ → ℕ) (slaveSocket : ℤ) : ℕ → ℕ → World → World
  | 0,     _,  w => w
  | n + 1, it, w =>
    let message := w.message slaveSocket
    if it < message.length then
      sendLoop accepts slaveSocket n (it + w.server.maxBufSize)
        (w.sendChunk accepts ((message.drop it).take w.server.maxBufSize))
    else w

def sendMessage (accepts : ℕ → ℕ → ℕ) (w : World) (slaveSocket : ℤ) : World :=
  let w := w.sendLoop accepts slaveSocket (w.message slaveSocket).length 0
  let w := { w with journal := w.journal.post (slaveSocket, w.message slaveSocket) }
  w.setMessage slaveSocket []

def acceptConnection (accepts : ℕ → ℕ → ℕ) (w : World) (slaveSocket : ℤ) : World :=
  let w := if slaveSocket < 0 then w else { w with journal := w.journal.join slaveSocket }
  let w := { w with
    server := { w.server with clients := w.server.clients.insert slaveSocket () } }
  let w := w.setMessage slaveSocket []
  let w := w.send accepts slaveSocket welcome
  if slaveSocket < 0 then w else { w with epoll := w.epoll.insert slaveSocket () }

end World

inductive Event
  | accept (slaveSocket : ℤ)
  | recv (slaveSocket : ℤ) (result : Option (List UInt8))
  | hangUp (slaveSocket : ℤ)

namespace Event

-- `accept` fails or returns a new descriptor. Other events are about sockets that are watched.
def Valid (w : World) : Event → Prop
  | accept socket                   => socket = -1 ∨
    (0 ≤ socket ∧ socket ≠ w.server.listenSocket ∧ w.journal.joined socket = none)
  | recv socket _ | hangUp socket   =>
    socket ≠ w.server.listenSocket ∧ (w.epoll.find? socket).isSome

def exec (accepts : ℕ → ℕ → ℕ) (w : World) : Event → World
  | accept socket      => w.acceptConnection accepts socket
  | recv socket result =>
    let (flag, w) := w.recvMessage socket result
    if flag = -1 then w.terminateConnection socket
    else if flag ≠ 0 then w.sendMessage accepts socket
    else w
  | hangUp socket      => w.terminateConnection socket

end Event

def Step (accepts : ℕ → ℕ → ℕ) (w : World) (e : Event) (w' : World) : Prop :=
  e.Valid w ∧ w' = e.exec accepts w

end Chat
