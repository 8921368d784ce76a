import Technosphere.Chat.Basic

namespace Chat

-- `"lost connection to server\n"`
def lostConnection : List UInt8 :=
  [108, 111, 115, 116, 32, 99, 111, 110, 110, 101, 99, 116, 105, 111, 110, 32, 116, 111, 32, 115,
    101, 114, 118, 101, 114, newline]

-- `message` stands for `recv_message_`. The client runs until `connectTo` returns. The record of
-- what has happened are the bytes that it has printed, the lines that it has read, the number of
-- calls of `getline` that have failed, the number of calls of `send`, the bytes that these have
-- accepted, and those that `recv` has returned.
structure Client where
  maxBufSize : ℕ
  message    : List UInt8
  running    : Bool
  printed    : List UInt8
  lines      : List (List UInt8)
  failed     : ℕ
  sends      : ℕ
  sent       : List UInt8
  received   : List UInt8

namespace Client

def init : Client where
  maxBufSize := 1024
  message    := []
  running    := true
  printed    := []
  lines      := []
  failed     := 0
  sends      := 0
  sent       := []
  received   := []

def recvMessage (c : Client) : Option (List UInt8) → ℤ × Client
  | none | some [] => (-1, c)
  | some bytes     =>
    let c := { c with message := c.message ++ bytes, received := c.received ++ bytes }
    (if c.message.getLast? = some newline then 1 else 0, c)

def send (accepts : ℕ → ℕ → ℕ) (c : Client) (bytes : List UInt8) : Client :=
  { c with
    sends := c.sends + 1
    sent  := c.sent ++ bytes.take (accepts c.sends bytes.length) }

def sendLoop (accepts : ℕ → ℕ → ℕ) (bufSend : List UInt8) : ℕ → ℕ → Client → Client
  | 0,     _,  c => c
  | n + 1, it, c =>
    if it < bufSend.length then
      sendLoop accepts bufSend n (it + c.maxBufSize)
        (c.send accepts ((bufSend.drop it).take c.maxBufSize))
    else c

-- At the end of the input `getline` fails and leaves the line empty, which is sent all the same.
def sendMessage (accepts : ℕ → ℕ → ℕ) (c : Client) (line : Option (List UInt8)) : Client :=
  let bufSend := line.getD [] ++ [newline]
  { c with
    lines  := c.lines ++ line.toList
    failed := c.failed + if line.isNone then 1 else 0 }.sendLoop accepts bufSend bufSend.length 0

def print (c : Client) (bytes : List UInt8) : Client :=
  { c with printed := c.printed ++ bytes }

def lose (c : Client) : Client :=
  { c.print lostConnection with running := false }

end Client

-- What `poll` reports for the socket: that there is input, with the result of the call of `recv`
-- that it leads to, or an error or the end of the connection.
inductive Poll
  | input (result : Option (List UInt8))
  | hangUp

namespace Client

def pollSocket (c : Client) : Poll → Client
  | .input result =>
    let (flag, c) := c.recvMessage result
    if flag = -1 then c.lose
    else if flag ≠ 0 then { c.print c.message with message := [] }
    else c
  | .hangUp       => c.lose

-- One round of the loop in `connectTo`, with what `getline` reads if `poll` has reported something
-- for the input.
def connectTo (accepts : ℕ → ℕ → ℕ) (c : Client) (socket : Option Poll)
    (stdin : Option (Option (List UInt8))) : Client :=
  let c := socket.elim c c.pollSocket
  if c.running then stdin.elim c (c.sendMessage accepts) else c

end Client

end Chat
