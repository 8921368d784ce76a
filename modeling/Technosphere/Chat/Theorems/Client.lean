import Technosphere.Chat.Client
import Technosphere.Lib.Lines

namespace Chat.Client

variable {accepts : ℕ → ℕ → ℕ} {c : Client} {bytes : List UInt8} {line : Option (List UInt8)}
  {it n : ℕ}

def farewell (c : Client) : List UInt8 :=
  if c.running then [] else lostConnection

-- The lines that the client has read, and an empty one for each time that it has found the end of
-- the input.
def said (c : Client) : List (List UInt8) :=
  c.lines ++ List.replicate c.failed []

-- The client prints what it has received, apart from the line that is still open.
structure Invariant (c : Client) : Prop where
  bufSize : 0 < c.maxBufSize
  printed : ∃ shown, c.printed = shown ++ c.farewell ∧ shown ++ c.message = c.received ∧
              (shown = [] ∨ shown.getLast? = some newline)
  message : c.message.getLast? ≠ some newline
  sent    : c.sent = Lines.unlines newline c.said
  lines   : ∀ l ∈ c.said, newline ∉ l

theorem sendLoop_eq (ha : ∀ i n, accepts i n = n) (hb : 0 < c.maxBufSize)
    (hn : bytes.length ≤ it + n) : ∃ sends, c.sendLoop accepts bytes n it =
      { c with sends := sends, sent := c.sent ++ bytes.drop it } := by
  induction n generalizing c it with
  | zero =>
    refine ⟨c.sends, ?_⟩
    rw [sendLoop, List.drop_eq_nil_of_le (by simpa using hn), List.append_nil]
  | succ n ih =>
    by_cases hit : it < bytes.length
    case pos =>
      let chunk := (bytes.drop it).take c.maxBufSize
      obtain ⟨sends, hr⟩ := @ih (c.send accepts chunk) (it + c.maxBufSize) hb (by omega)
      refine ⟨sends, ?_⟩
      rw [sendLoop, if_pos hit]
      apply hr.trans
      simp only [send, ha, List.take_length, List.append_assoc, chunk]
      rw [← List.drop_drop, List.take_append_drop]
    case neg =>
      refine ⟨c.sends, ?_⟩
      rw [sendLoop, if_neg hit, List.drop_eq_nil_of_le (not_lt.mp hit), List.append_nil]

theorem sendMessage_eq (ha : ∀ i n, accepts i n = n) (hb : 0 < c.maxBufSize) :
    ∃ sends, c.sendMessage accepts line = { c with
      lines  := c.lines ++ line.toList
      failed := c.failed + if line.isNone then 1 else 0
      sends  := sends
      sent   := c.sent ++ (line.getD [] ++ [newline]) } :=
  sendLoop_eq ha hb (Nat.le_add_left ..)

inductive PollCases (c : Client) (p : Poll) : Prop
  | lost (eq : c.pollSocket p = c.lose)
      (ended : ∀ bytes, p = .input (some bytes) → bytes = [])
  | append (bytes : List UInt8) (received : p = .input (some bytes))
      (incomplete : (c.message ++ bytes).getLast? ≠ some newline)
      (eq : c.pollSocket p =
        { c with message := c.message ++ bytes, received := c.received ++ bytes })
  | shown (bytes : List UInt8) (received : p = .input (some bytes))
      (complete : (c.message ++ bytes).getLast? = some newline)
      (eq : c.pollSocket p =
        { c with
          message  := []
          received := c.received ++ bytes
          printed  := c.printed ++ (c.message ++ bytes) })

theorem poll_cases {p : Poll} : PollCases c p := by
  rcases p with ⟨_ | _ | ⟨b, bytes⟩⟩ | _
  · exact .lost rfl (by simp)
  · exact .lost rfl (by simp)
  · by_cases hl : (c.message ++ b :: bytes).getLast? = some newline
    case pos =>
      apply PollCases.shown (b :: bytes) rfl hl
      simp only [pollSocket, recvMessage, hl]
      rfl
    case neg =>
      apply PollCases.append (b :: bytes) rfl hl
      simp only [pollSocket, recvMessage, if_neg hl]
      rfl
  · exact .lost rfl (by simp)

namespace Invariant

theorem initial : Invariant .init where
  bufSize := by simp [init]
  printed := ⟨[], by simp [init, farewell]⟩
  message := by simp [init]
  sent    := rfl
  lines   := by simp [init, said]

theorem sendMessage (ha : ∀ i n, accepts i n = n) (h : Invariant c)
    (hl : ∀ l, line = some l → newline ∉ l ∧ c.failed = 0) :
    Invariant (c.sendMessage accepts line) := by
  obtain ⟨sends, eq⟩ := @sendMessage_eq accepts c line ha h.bufSize
  have hs : (c.sendMessage accepts line).said = c.said ++ [line.getD []] := by
    rw [eq]
    cases line with
    | none   => simp [said, List.replicate_succ']
    | some l => simp [said, (hl l rfl).2]
  constructor
  case bufSize => rw [eq]; exact h.bufSize
  case printed => rw [eq]; exact h.printed
  case message => rw [eq]; exact h.message
  case sent    => rw [hs, Lines.unlines_concat, ← h.sent, eq]
  case lines   =>
    rw [hs]
    refine List.forall_mem_append.mpr ⟨h.lines, List.forall_mem_singleton.mpr ?_⟩
    cases line with
    | none   => exact List.not_mem_nil
    | some l => exact (hl l rfl).1

theorem pollSocket {p : Poll} (h : Invariant c) (hr : c.running) : Invariant (c.pollSocket p) := by
  obtain ⟨shown, hs, hm, hn⟩ := h.printed
  simp only [farewell, hr, ↓reduceIte, List.append_nil] at hs
  cases @poll_cases c p with
  | lost eq                       =>
    rw [eq]
    exact { h with printed := ⟨shown, by simp [lose, print, farewell, hs], hm, hn⟩ }
  | append bytes _ incomplete eq  =>
    rw [eq]
    refine { h with printed := ⟨shown, ?_, ?_, hn⟩, message := incomplete }
    · simp [farewell, hr, hs]
    · rw [← hm, List.append_assoc]
  | shown bytes _ complete eq     =>
    rw [eq]
    refine { h with printed := ⟨shown ++ (c.message ++ bytes), ?_, ?_, .inr ?_⟩, message := ?_ }
    · simp [farewell, hr, hs]
    · rw [← hm, List.append_nil, List.append_assoc]
    · rw [List.getLast?_append, complete]
      rfl
    · simp

end Invariant

def polled : Option Poll → List UInt8
  | some (.input (some bytes)) => bytes
  | _                          => []

structure Polls (bytes : List UInt8) (c c' : Client) : Prop where
  received : c'.received = c.received ++ bytes
  sent     : c'.sent = c.sent
  failed   : c'.failed = c.failed
  bufSize  : c'.maxBufSize = c.maxBufSize

theorem polls {socket : Option Poll} :
    Polls (polled socket) c (socket.elim c c.pollSocket) := by
  rcases socket with _ | p
  · exact ⟨(List.append_nil _).symm, rfl, rfl, rfl⟩
  · cases @poll_cases c p with
    | lost eq ended         =>
      have hp : polled (some p) = [] := by
        rcases p with ⟨_ | bytes⟩ | _
        · rfl
        · exact ended bytes rfl
        · rfl
      rw [Option.elim_some, eq, hp]
      exact ⟨(List.append_nil _).symm, rfl, rfl, rfl⟩
    | append _ received _ eq
    | shown _ received _ eq =>
      rw [Option.elim_some, eq, received]
      exact ⟨rfl, rfl, rfl, rfl⟩

theorem Invariant.connectTo {socket : Option Poll} {stdin : Option (Option (List UInt8))}
    (ha : ∀ i n, accepts i n = n) (h : Invariant c) (hr : c.running)
    (hl : ∀ l, stdin = some (some l) → newline ∉ l ∧ c.failed = 0) :
    Invariant (c.connectTo accepts socket stdin) := by
  have hp : Invariant (socket.elim c c.pollSocket) := by
    cases socket with
    | none   => exact h
    | some p => exact h.pollSocket hr
  rw [Client.connectTo]
  split_ifs
  · cases stdin with
    | none      => exact hp
    | some line =>
      have hf : (socket.elim c c.pollSocket).failed = c.failed := polls.failed
      exact hp.sendMessage ha fun l hs => hf ▸ hl l (congrArg some hs)
  · exact hp

theorem connectTo_none_sent {socket : Option Poll} :
    (c.connectTo accepts socket none).sent = c.sent := by
  rw [connectTo, Option.elim_none, ite_self]
  exact polls.sent

section Round

variable {socket : Option Poll} {stdin : Option (Option (List UInt8))}
  (ha : ∀ i n, accepts i n = n) (hb : 0 < c.maxBufSize)
include ha hb

-- A round appends to what has been received and to what has been sent.
theorem connectTo_received :
    (c.connectTo accepts socket stdin).received = c.received ++ polled socket := by
  have hp := @polls c socket
  rw [connectTo, ← hp.received]
  split_ifs
  · cases stdin with
    | none      => rfl
    | some line =>
      obtain ⟨sends, eq⟩ := @sendMessage_eq accepts _ line ha (hp.bufSize ▸ hb)
      rw [Option.elim_some, eq]
  · rfl

theorem sent_prefix_connectTo : c.sent <+: (c.connectTo accepts socket stdin).sent := by
  have hp := @polls c socket
  rw [connectTo, ← hp.sent]
  split_ifs
  · cases stdin with
    | none      => exact List.prefix_rfl
    | some line =>
      obtain ⟨sends, eq⟩ := @sendMessage_eq accepts _ line ha (hp.bufSize ▸ hb)
      rw [Option.elim_some, eq]
      exact List.prefix_append ..
  · exact List.prefix_rfl

end Round

end Chat.Client
