/-
The proxy behind `upstream_semaphore` (`try_acquire_upstream_permit`,
`handle_artifact_head`, `npm_search`, `npm_audit`).

A leader takes its permit with its entry of the inflight map, and has it until
its future is gone, finished or dropped. An artifact HEAD looks at the disk, and
a search or an audit at nothing: they ask upstream by themselves, a permit in
hand. Who finds no permit is refused.

What upstream answers them is a parameter, `ask`. What the metadata memory
budget refuses is part of what a fetch comes to, `up`.
-/
import Vampire.Lookup

namespace Vampire

/-- Where a request stands that asks upstream by itself. -/
inductive AskPc (Key Meta : Type)
  /-- An artifact HEAD, at its disk check. -/
  | load (key : Key)
  | acquire
  /-- Waiting for upstream, with a permit. -/
  | exchanging
  | answered (r : Reply Meta)
  | refused
  /-- Its client disconnected. -/
  | gone
  deriving DecidableEq

structure Gate (Key Meta : Type) where
  proxy : Proxy Key Meta
  /-- The free permits of `upstream_semaphore`. -/
  available : Nat
  /-- The leader of the flight has its permit. -/
  held : Nat → Bool
  asks : Nat → Option (AskPc Key Meta)

/-- `try_acquire_upstream_permit` fails. -/
def Proxy.Action.refuses {Key : Type} : Proxy.Action Key → Bool
  | .refuse _ => true
  | _ => false

namespace Gate

open Lib Proxy

inductive Action (Key : Type)
  | proxy (a : Proxy.Action Key)
  /-- The future of a flight's leader is gone, its permit with it. -/
  | release (f : Nat)
  /-- An artifact HEAD; without a key a search or an audit. -/
  | arrive (r : Nat) (key : Option Key)
  | load (r : Nat)
  | acquire (r : Nat)
  /-- Upstream's answer is passed on. -/
  | answer (r : Nat)
  | disconnect (r : Nat)
  deriving DecidableEq

variable {Key Meta : Type}

def setAsk (s : Gate Key Meta) (r : Nat) (pc : AskPc Key Meta) : Gate Key Meta :=
  { s with asks := Function.update s.asks r (some pc) }

/-- The proxy goes on as `p`: a flight is registered with a permit, and a request refused for want of one. -/
def takePermit (s : Gate Key Meta) (a : Proxy.Action Key) (p : Proxy Key Meta) : Option (Gate Key Meta) :=
  if a.refuses then
    if s.available = 0 then some { s with proxy := p } else none
  else if p.next = s.proxy.next then some { s with proxy := p }
  else if s.available = 0 then none
  else some { s with
    proxy := p
    available := s.available - 1
    held := Function.update s.held s.proxy.next true }

variable [DecidableEq Key] [DecidableEq Meta] (up : Nat → Slot Key → Fetched Meta) (ask : Nat → Reply Meta)

def step : Action Key → Gate Key Meta → Option (Gate Key Meta)
  | .proxy a, s => (Proxy.step up a s.proxy).bind (s.takePermit a)
  | .release f, s =>
    if s.held f = true ∧ (s.proxy.tasks (.leader f)).any (·.pc = .done) then
      some { s with available := s.available + 1, held := Function.update s.held f false }
    else none
  | .arrive r key, s =>
    if s.asks r = none then
      match key with
      | some key => some (s.setAsk r (.load key))
      | none => some (s.setAsk r .acquire)
    else none
  | .load r, s =>
    match s.asks r with
    | some (.load key) =>
      match s.proxy.stored key with
      | some e => some (s.setAsk r (.answered (.entry e.info none)))
      | none => some (s.setAsk r .acquire)
    | _ => none
  | .acquire r, s =>
    match s.asks r with
    | some .acquire =>
      if s.available = 0 then some (s.setAsk r .refused)
      else some { s.setAsk r .exchanging with available := s.available - 1 }
    | _ => none
  | .answer r, s =>
    match s.asks r with
    | some .exchanging => some { s.setAsk r (.answered (ask r)) with available := s.available + 1 }
    | _ => none
  | .disconnect r, s =>
    match s.asks r with
    | some .exchanging => some { s.setAsk r .gone with available := s.available + 1 }
    | some (.load _) | some .acquire => some (s.setAsk r .gone)
    | _ => none

omit [DecidableEq Key] [DecidableEq Meta] in
/-- A start, with no request before it, and with any number of permits. -/
def Init (s : Gate Key Meta) : Prop :=
  Started s.proxy ∧ s.held = (fun _ => false) ∧ s.asks = fun _ => none

/-! ## The proxy of a run -/

variable {up ask}

omit [DecidableEq Key] [DecidableEq Meta] in
theorem takePermit_proxy {s s' : Gate Key Meta} {a : Proxy.Action Key} {p : Proxy Key Meta}
    (h : s.takePermit a p = some s') : s'.proxy = p ∧ s'.asks = s.asks := by
  simp only [takePermit] at h
  split at h
  · split at h <;> cases h
    exact ⟨rfl, rfl⟩
  · split at h
    · cases h
      exact ⟨rfl, rfl⟩
    · split at h <;> cases h
      exact ⟨rfl, rfl⟩

/-- A step is one of the proxy, or leaves it as it is. -/
theorem step_proxy {s s' : Gate Key Meta} {a : Action Key} (h : step up ask a s = some s') :
    (∃ b, a = .proxy b ∧ Rule up s.proxy b s'.proxy) ∨ s'.proxy = s.proxy := by
  cases a with
  | proxy b =>
    obtain ⟨p, hp, ha⟩ := Option.bind_eq_some_iff.1 h
    exact .inl ⟨b, rfl, (takePermit_proxy ha).1 ▸ step_rule hp⟩
  | release f | arrive r key | load r | acquire r | answer r | disconnect r =>
    right
    simp only [step] at h
    split at h
    all_goals first | cases h; rfl | (split at h <;> cases h <;> rfl) | cases h

/-- The condition on the proxy's part of a step. -/
def Allows (ok : Proxy Key Meta → Proxy.Action Key → Prop) (s : Gate Key Meta) : Action Key → Prop
  | .proxy a => ok s.proxy a
  | _ => True

/-- The proxy's part of a run is a run of the proxy. -/
theorem run_proxy {ok : Proxy Key Meta → Proxy.Action Key → Prop} {s : Gate Key Meta}
    (h : Run (step up ask) (Allows ok) Init s) : Run (Proxy.step up) ok Started s.proxy := by
  induction h with
  | start h => exact .start h.1
  | next _ hok hst ih =>
    obtain ⟨b, rfl, hr⟩ | he := step_proxy hst
    · exact .next ih hok hr.step
    · exact he ▸ ih

end Gate

end Vampire
