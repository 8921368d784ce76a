import Technosphere.Chat.Client

namespace Chat

-- The server with its clients. A client is named by the descriptor that the server has for it, or
-- is going to have.
structure Network where
  world   : World
  clients : ℤ → Client

namespace Network

def init (listenSocket : ℤ) : Network where
  world     := .init listenSocket
  clients _ := .init

inductive Event
  | server (e : Chat.Event)
  | client (k : ℤ) (socket : Option Poll) (stdin : Option (Option (List UInt8)))

namespace Event

-- In both directions a connection delivers the bytes that have been sent, in their order. When it
-- ends, some of them may not have been delivered. No line is read after the end of the input.
def Valid (n : Network) : Event → Prop
  | server (.recv k (some bytes)) =>
    (Chat.Event.recv k (some bytes)).Valid n.world ∧
      n.world.received k ++ bytes <+: (n.clients k).sent ∧ bytes.length ≤ n.world.server.maxBufSize
  | server e                      => e.Valid n.world
  | client k socket stdin         =>
    (n.clients k).running ∧
      (∀ bytes, socket = some (.input (some bytes)) →
        (n.clients k).received ++ bytes <+: n.world.sent k ∧
          bytes.length ≤ (n.clients k).maxBufSize) ∧
      ∀ line, stdin = some (some line) → newline ∉ line ∧ (n.clients k).failed = 0

-- `accepts` is for the calls of `send` of the server, and `acceptsFrom` for those of a client.
def exec (accepts : ℕ → ℕ → ℕ) (acceptsFrom : ℤ → ℕ → ℕ → ℕ) (n : Network) : Event → Network
  | server e              => { n with world := e.exec accepts n.world }
  | client k socket stdin =>
    let client := (n.clients k).connectTo (acceptsFrom k) socket stdin
    { n with clients := Function.update n.clients k client }

end Event

def Step (accepts : ℕ → ℕ → ℕ) (acceptsFrom : ℤ → ℕ → ℕ → ℕ) (n : Network) (e : Event)
    (n' : Network) : Prop :=
  e.Valid n ∧ n' = e.exec accepts acceptsFrom n

end Network

end Chat
