import Mathlib

-- A relay hands on what it receives. What it has handed on is held until this is acknowledged, and
-- each time bytes arrive all that is held is handed on, those that have just arrived included.
structure Relay (α : Type u) where
  received : List α
  held     : List α
  handed   : List α

namespace Relay

variable {α : Type u} {r : Relay α} {bytes : List α}

def forward (r : Relay α) (bytes : List α) : Relay α where
  received := r.received ++ bytes
  held     := r.held ++ bytes
  handed   := r.handed ++ (r.held ++ bytes)

def Faithful (r : Relay α) : Prop :=
  r.handed <+: r.received

def UpToDate (r : Relay α) : Prop :=
  r.handed = r.received

theorem UpToDate.faithful (h : r.UpToDate) : r.Faithful :=
  (Eq.symm h ▸ List.prefix_rfl : r.handed <+: r.received)

theorem Faithful.of_prefix {r' : Relay α} (h : r.Faithful) (hh : r'.handed = r.handed)
    (hr : r.received <+: r'.received) : r'.Faithful := by
  rw [Faithful, hh]
  exact h.trans hr

theorem UpToDate.forward (h : r.UpToDate) (hh : r.held = []) : (r.forward bytes).UpToDate := by
  simp [UpToDate, Relay.forward, hh, h.symm]

theorem UpToDate.held_eq_nil (h : r.UpToDate) (hf : (r.forward bytes).Faithful) : r.held = [] := by
  have hl : (r.forward bytes).handed.length ≤ _ := hf.length_le
  simp only [Relay.forward, List.length_append] at hl
  have he : r.handed.length = r.received.length := congrArg List.length h
  exact List.eq_nil_of_length_eq_zero (by omega)

end Relay
