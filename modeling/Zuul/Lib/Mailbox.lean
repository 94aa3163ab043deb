import Mathlib.Logic.Basic

/-! A one-slot mailbox that keeps the latest message. Sending stores the message
and then posts a wake token without blocking; receiving takes the token and then
reads the slot. The four half-steps may interleave. -/
namespace Zuul.Lib

structure Mailbox (E : Type) where
  last : E
  wake : Bool := false
  half : Bool := false
  deriving DecidableEq, Repr

namespace Mailbox
variable {E : Type} {m : Mailbox E} {P : E → Prop}

/-- First half of a send. -/
def record (m : Mailbox E) (e : E) : Mailbox E := { m with last := e, half := true }

/-- Second half of a send; the token is dropped when one is pending. -/
def post (m : Mailbox E) : Mailbox E := { m with wake := true, half := false }

/-- First half of a receive, when a token is pending. -/
def take (m : Mailbox E) : Option (Mailbox E) := if m.wake then some { m with wake := false } else none

/-- Taking the token leaves a record that is under way. -/
theorem take_half {m' : Mailbox E} (h : m.take = some m') : m'.half = m.half := by
  rw [take] at h
  split at h
  · cases h
    rfl
  · cases h

/-- With no token pending and no send half done, the slot satisfies P. This is
what a reader knows that found P in the slot and now waits for the next token. -/
def Settled (P : E → Prop) (m : Mailbox E) : Prop := m.wake = false → m.half = false → P m.last

/-- While a send is half done nothing has to hold of the slot. -/
theorem settled_record (e : E) : (m.record e).Settled P := fun _ h => nomatch h

/-- Nor while the token waits to be taken. -/
theorem settled_post : m.post.Settled P := fun h => nomatch h

/-- A slot whose event is fine is settled. -/
theorem settled_of_last (h : P m.last) : m.Settled P := fun _ _ => h

end Mailbox

section Samples
variable {E : Type} {sent got : List E}

/-- The list got takes its members from sent, in order; a member may be skipped or repeated. -/
def Samples (sent got : List E) : Prop :=
  ∃ ps : List Nat, ps.Pairwise (· ≤ ·) ∧ got.map some = ps.map (fun p => sent[p]?)

private theorem samples_nil (sent : List E) : Samples sent [] := ⟨[],.nil,rfl⟩

private theorem position_lt {ps : List Nat} (h : got.map some = ps.map (fun p => sent[p]?)) {p : Nat} (hp : p ∈ ps) :
    p < sent.length := by
  have hm : sent[p]? ∈ got.map some := h ▸ List.mem_map_of_mem hp
  obtain ⟨e,_,he⟩ := List.mem_map.mp hm
  exact (List.getElem?_eq_some_iff.mp he.symm).1

/-- What was got is a sample of more as well. -/
theorem Samples.append (h : Samples sent got) (e : E) : Samples (sent ++ [e]) got := by
  obtain ⟨ps,ho,hg⟩ := h
  refine ⟨ps,ho,hg.trans (List.map_congr_left ?_)⟩
  intro p hp
  exact (List.getElem?_append_left (position_lt hg hp)).symm

/-- Taking the newest member keeps the order, whatever was taken before. -/
theorem Samples.latest (h : Samples sent got) {e : E} (he : sent.getLast? = some e) : Samples sent (got ++ [e]) := by
  obtain ⟨ps,ho,hg⟩ := h
  rw [List.getLast?_eq_getElem?] at he
  refine ⟨ps ++ [sent.length - 1],?_,?_⟩
  · rw [List.pairwise_append]
    refine ⟨ho,List.pairwise_singleton _ _,?_⟩
    intro p hp q hq
    have hlt := position_lt hg hp
    rw [List.mem_singleton] at hq
    omega
  · rw [List.map_append,List.map_append,hg,List.map_singleton,List.map_singleton,he]

end Samples

namespace Mailbox
variable {E : Type} {m m' : Mailbox E} {woken : Prop} {sent got : List E}

/-- A mailbox, the messages whose send has begun and those its reader has got. The
reader is woken between the two halves of a receive. -/
structure Coalesces (m : Mailbox E) (woken : Prop) (sent got : List E) : Prop where
  last : ∀ e ∈ sent.getLast?, m.last = e
  quiet : sent = [] → m.wake = false ∧ m.half = false ∧ ¬woken
  samples : Samples sent got
  latest : m.wake = false → m.half = false → ¬woken → got.getLast? = sent.getLast?

/-- A new mailbox has nothing sent and nothing got. -/
theorem coalesces_new (e : E) (h : ¬woken) : Coalesces { last := e } woken [] [] where
  last := by
    intro e' he
    cases he
  quiet := fun _ => ⟨rfl,rfl,h⟩
  samples := samples_nil []
  latest := fun _ _ _ => rfl

namespace Coalesces

/-- The first half of a send: the slot is overwritten. -/
theorem record (h : Coalesces m woken sent got) (e : E) : Coalesces (m.record e) woken (sent ++ [e]) got where
  last := by
    intro e' he
    rw [List.getLast?_concat] at he
    exact Option.some.inj he
  quiet := by
    intro he
    exact absurd he (List.append_ne_nil_of_right_ne_nil _ (List.cons_ne_nil _ _))
  samples := h.samples.append e
  latest := by
    intro _ hh
    cases hh

/-- The second half of a send: the token is there. -/
theorem post (h : Coalesces m woken sent got) (hh : m.half = true) : Coalesces m.post woken sent got where
  last := h.last
  quiet := by
    intro he
    rw [(h.quiet he).2.1] at hh
    cases hh
  samples := h.samples
  latest := by
    intro hw
    cases hw

/-- The reader takes the token and will read the slot. -/
theorem take (h : Coalesces m woken sent got) (ht : m.take = some m') {woken' : Prop} (hw' : woken') :
    Coalesces m' woken' sent got := by
  rw [Mailbox.take] at ht
  split at ht
  case isFalse => cases ht
  case isTrue hw =>
    cases ht
    refine ⟨h.last,?_,h.samples,fun _ _ hn => absurd hw' hn⟩
    intro he
    rw [(h.quiet he).1] at hw
    cases hw

/-- The second half of a receive gets the newest message. -/
theorem read (h : Coalesces m woken sent got) (hw : woken) (woken' : Prop) :
    Coalesces m woken' sent (got ++ [m.last]) := by
  have hne : sent ≠ [] := fun he => (h.quiet he).2.2 hw
  have hl : sent.getLast? = some m.last := by
    rw [List.getLast?_eq_some_getLast hne]
    exact congrArg some (h.last _ (List.getLast?_eq_some_getLast hne)).symm
  refine ⟨h.last,fun he => absurd he hne,h.samples.latest hl,?_⟩
  intro _ _ _
  rw [List.getLast?_concat,hl]

theorem congr (h : Coalesces m woken sent got) {woken' : Prop} (hw : woken' ↔ woken) :
    Coalesces m woken' sent got := by
  rw [propext hw]
  exact h

end Coalesces
end Mailbox
end Zuul.Lib
