import Technosphere.Lib.TextStream
import Technosphere.Proxy.Basic

namespace Proxy

-- What the constructor can end with instead of a configuration: `lexical_cast` throws, or an
-- element of a vector is accessed that does not exist, which is undefined.
inductive ConfigError
  | badLexicalCast
  | outOfRange
deriving DecidableEq

structure Boost where
  split       : String → List String
  lexicalCast : String → Option ℤ

-- `lexical_cast` accepts a text of which the input of an `int` leaves nothing, and that does not
-- begin with whitespace.
def Boost.std : Boost where
  split s       := (s.toList.splitOn ':').map .ofList
  lexicalCast s :=
    let (n, stream) := (TextStream.opened s).extractInt 0
    if stream.fail || !stream.rest.isEmpty || s.toList.head?.any TextStream.isSpace then none
    else some n

def element (splitVec : List String) (i : ℕ) : Except ConfigError String :=
  match splitVec[i]? with
  | some s => .ok s
  | none   => .error .outOfRange

namespace ServerAddress

def stripComma (ip : String) : String :=
  if ip.toList.getLast? = some ',' then .ofList ip.toList.dropLast else ip

def ofWord (boost : Boost) (ip : String) : Except ConfigError ServerAddress := do
  let splitVec := boost.split (stripComma ip)
  let ip       ← element splitVec 0
  let text     ← element splitVec 1
  match boost.lexicalCast text with
  | some port => return { ip, port }
  | none      => throw .badLexicalCast

def extract (boost : Boost) (stream : TextStream) (addr : ServerAddress) :
    Except ConfigError (ServerAddress × TextStream) :=
  let (ip, stream) := stream.extractString addr.ip
  if stream.fail then .ok ({ addr with ip }, stream)
  else (ofWord boost ip).map (·, stream)

end ServerAddress

namespace ConfigProxy

def readServers (boost : Boost) :
    ℕ → TextStream → ServerAddress → List ServerAddress →
      Option (Except ConfigError (List ServerAddress))
  | 0,     _,   _,             _           => none
  | n + 1, fin, curServerAddr, serverAddrs =>
    match ServerAddress.extract boost fin curServerAddr with
    | .error e                 => some (.error e)
    | .ok (curServerAddr, fin) =>
      if fin.fail then some (.ok serverAddrs)
      else readServers boost n fin curServerAddr (serverAddrs ++ [curServerAddr])

-- The constructor, for a file with this text. The port, which has some value before the input, is
-- returned next to the addresses. (The other values before the input are never used.)
def new (boost : Boost) (port : ℤ) (file : String) :
    Option (Except ConfigError (ℤ × ConfigProxy)) :=
  let (port, fin) := (TextStream.opened file).extractInt port
  let (_, fin)    := fin.extractChar ' '
  (readServers boost (file.length + 1) fin ⟨"", 0⟩ []).map fun r =>
    r.map fun serverAddrs => (port, ⟨serverAddrs⟩)

end ConfigProxy

end Proxy
