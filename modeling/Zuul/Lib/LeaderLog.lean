import Mathlib.Data.List.Infix
import Mathlib.Data.List.Nodup
import Mathlib.Data.List.Perm.Subperm
import Mathlib.Logic.Function.Basic

/-! A log that elected leaders write, one leader a term. Members vote for a log no older
than their own, take over what a leader wrote and say how much of it they have. What a
quorum has said it has is in the log of every later leader. -/
namespace Zuul.Lib

/-- Which properties hold for so many members that any two of them share one. -/
structure Quorums (N : Type) where
  Quorum : (N → Prop) → Prop
  mono : ∀ {p q : N → Prop}, (∀ i, p i → q i) → Quorum p → Quorum q
  meet : ∀ {p q : N → Prop}, Quorum p → Quorum q → ∃ i, p i ∧ q i

/-- More than half of the members. -/
def majority {N : Type} (members : List N) : Quorums N where
  Quorum p := ∃ l : List N, l.Nodup ∧ (∀ i ∈ l, i ∈ members ∧ p i) ∧ members.length < 2 * l.length
  mono := by
    rintro p q hpq ⟨l,hn,hl,hc⟩
    exact ⟨l,hn,fun i hi => ⟨(hl i hi).1,hpq i (hl i hi).2⟩,hc⟩
  meet := by
    rintro p q ⟨l,hn,hl,hc⟩ ⟨l',hn',hl',hc'⟩
    by_contra hd
    have hdis : l.Disjoint l' := fun i hi hi' => hd ⟨i,(hl i hi).2,(hl' i hi').2⟩
    have hsub : l ++ l' ⊆ members := by
      intro i hi
      rcases List.mem_append.mp hi with hi | hi
      · exact (hl i hi).1
      · exact (hl' i hi).1
    have hle := ((hn.append hn' hdis).subperm hsub).length_le
    rw [List.length_append] at hle
    omega

namespace LeaderLog
variable {N E : Type}

/-- The term of the last entry. Without entries it is zero, below every leader's term. -/
def lastStamp (stamp : E → Nat) (l : List E) : Nat := l.getLast?.elim 0 stamp

/-- A log that ends in a later term, or in the same term and is as long. -/
def UpToDate (stamp : E → Nat) (b l : List E) : Prop :=
  lastStamp stamp l < lastStamp stamp b ∨ lastStamp stamp l = lastStamp stamp b ∧ l.length ≤ b.length

/-- The members' terms and logs, and what has happened so far: who voted for whom in each
term, the logs behind which they ran, the leader of each term and what it wrote, how
much of it each member has said to have, and how much of it the leader has announced. -/
structure State (N E : Type) where
  term : N → Nat
  log : N → List E
  voted : N → Nat → Option N
  bid : Nat → N → Option (List E)
  leader : Nat → Option N
  led : Nat → Option (List E)
  acked : N → Nat → Nat
  announced : Nat → Nat

/-- Change a function at one pair. -/
def put {A B C : Type} [DecidableEq A] [DecidableEq B] (f : A → B → C) (a : A) (b : B) (c : C) : A → B → C :=
  fun a' b' => if a' = a ∧ b' = b then c else f a' b'

theorem put_same {A B C : Type} [DecidableEq A] [DecidableEq B] (f : A → B → C) (a : A) (b : B) (c : C) :
    put f a b c a b = c := if_pos ⟨rfl,rfl⟩

theorem put_other {A B C : Type} [DecidableEq A] [DecidableEq B] (f : A → B → C) {a a' : A} {b b' : B} {c : C}
    (h : ¬(a' = a ∧ b' = b)) : put f a b c a' b' = f a' b' := if_neg h

section Actions
variable [DecidableEq N]

namespace State
variable (s : State N E)

def advance (i : N) (T : Nat) : State N E := { s with term := Function.update s.term i T }

/-- A candidate runs with its own log. -/
def stand (c : N) (T : Nat) : State N E := { s with bid := put s.bid T c (some (s.log c)) }

def vote (i c : N) (T : Nat) : State N E := { s with voted := put s.voted i T (some c) }

/-- The leader's own log is what it has written. -/
def write (c : N) (T : Nat) (L : List E) : State N E :=
  { s with
    leader := Function.update s.leader T (some c)
    led := Function.update s.led T (some L)
    log := Function.update s.log c L
    acked := put s.acked c T L.length }

open Classical in
/-- A member that has all of P keeps what it has, and one that has not replaces its log. -/
noncomputable def accept (i : N) (T : Nat) (P : List E) : State N E :=
  { s with
    log := Function.update s.log i (if P <+: s.log i then s.log i else P)
    acked := put s.acked i T (max (s.acked i T) P.length) }

def announce (T k : Nat) : State N E := { s with announced := Function.update s.announced T k }

end State

/-- What can happen. -/
inductive Step (Q : Quorums N) (stamp : E → Nat) (s : State N E) : State N E → Prop where
  | advance {i T} (ht : s.term i ≤ T) : Step Q stamp s (s.advance i T)
  | campaign {c T} (ht : s.term c < T) : Step Q stamp s (((s.advance c T).stand c T).vote c c T)
  | vote {i c T B} (ht : s.term i = T) (hv : ∀ c' ∈ s.voted i T, c' = c) (hb : s.bid T c = some B)
      (hu : UpToDate stamp B (s.log i)) : Step Q stamp s (s.vote i c T)
  | elect {c T e} (ht : s.term c = T) (hb : s.bid T c = some (s.log c)) (hq : Q.Quorum (fun i => s.voted i T = some c))
      (hn : s.leader T ≠ some c) (he : stamp e = T) : Step Q stamp s (s.write c T (s.log c ++ [e]))
  | append {c T es} (ht : s.term c = T) (hl : s.leader T = some c) (he : ∀ e ∈ es, stamp e = T) :
      Step Q stamp s (s.write c T (s.log c ++ es))
  | accept {i T L P} (ht : s.term i = T) (hl : s.led T = some L) (hp : P <+: L) : Step Q stamp s (s.accept i T P)
  | announce {T L k} (hl : s.led T = some L) (hk : s.announced T ≤ k) (hk' : k ≤ L.length)
      (hs : lastStamp stamp (L.take k) = T) (hq : Q.Quorum (fun i => k ≤ s.acked i T)) : Step Q stamp s (s.announce T k)

end Actions

/-- Every entry was written by the leader of its term, and behind what is before it. -/
def State.Grounded (stamp : E → Nat) (s : State N E) (l : List E) : Prop :=
  ∀ p e, p ++ [e] <+: l → ∃ L, s.led (stamp e) = some L ∧ p ++ [e] <+: L

/-- Written by the leader of T, ending in its term, and so many have it or can still take
it over in that term that a quorum may come to have it. -/
def State.Live (Q : Quorums N) (stamp : E → Nat) (s : State N E) (T : Nat) (P : List E) : Prop :=
  (∃ L, s.led T = some L ∧ P <+: L) ∧ lastStamp stamp P = T ∧ Q.Quorum (fun i => P.length ≤ s.acked i T ∨ s.term i ≤ T)

/-- What holds all along. In the last four, P may still come to be had by a quorum. -/
structure Inv (Q : Quorums N) (stamp : E → Nat) (base : Nat) (s : State N E) : Prop where
  born : ∀ i, base ≤ s.term i
  acks : ∀ {i T}, 0 < s.acked i T → T ≤ s.term i ∧ ∃ L, s.led T = some L ∧ s.acked i T ≤ L.length
  votes : ∀ {i T c}, s.voted i T = some c → T ≤ s.term i ∧ (s.bid T c).isSome
  bids : ∀ {T c B}, s.bid T c = some B → base < T ∧ T ≤ s.term c ∧ s.Grounded stamp B ∧ ∀ e ∈ B, stamp e < T
  written : ∀ {T L}, s.led T = some L → 0 < T ∧ s.Grounded stamp L ∧ L.Pairwise (fun d e => stamp d ≤ stamp e) ∧
    ∀ e ∈ L, stamp e ≤ T
  begun : ∀ {T L}, s.led T = some L → Q.Quorum (fun i => T ≤ s.term i) ∧ (T = base ∨ ∃ c, s.leader T = some c)
  leaders : ∀ {T c}, s.leader T = some c → Q.Quorum (fun i => s.voted i T = some c) ∧ (s.led T).isSome ∧
    T ≤ s.term c ∧ (s.term c = T → s.led T = some (s.log c))
  logs : ∀ i, s.Grounded stamp (s.log i) ∧ ∀ e ∈ s.log i, stamp e ≤ s.term i
  current : ∀ {i L P}, s.led (s.term i) = some L → P <+: L → P.length ≤ s.acked i (s.term i) → P <+: s.log i
  told : ∀ {T}, 0 < s.announced T → ∃ L, s.led T = some L ∧ s.announced T ≤ L.length ∧
    lastStamp stamp (L.take (s.announced T)) = T ∧ Q.Quorum (fun i => s.announced T ≤ s.acked i T)
  complete : ∀ {T T' P L'}, s.Live Q stamp T P → T < T' → s.led T' = some L' → P <+: L'
  kept : ∀ {i T P}, s.Live Q stamp T P → P.length ≤ s.acked i T → P <+: s.log i
  backed : ∀ {i T T' c B P}, s.Live Q stamp T P → P.length ≤ s.acked i T → T < T' → s.voted i T' = some c →
    s.bid T' c = some B → P <+: B

variable {Q : Quorums N} {stamp : E → Nat} {base T T' : Nat} {s s' : State N E} {i c : N} {l P L : List E}

section Stamps

/-- The last entry decides the term of a log. -/
theorem lastStamp_concat (p : List E) (e : E) : lastStamp stamp (p ++ [e]) = stamp e := by
  rw [lastStamp,List.getLast?_concat]
  rfl

private theorem ends_of_lastStamp_pos (h : 0 < lastStamp stamp l) : ∃ p e, l = p ++ [e] := by
  rcases List.eq_nil_or_concat l with rfl | ⟨p,e,rfl⟩
  · exact (Nat.lt_irrefl 0 h).elim
  · exact ⟨p,e,List.concat_eq_append⟩

private theorem lastStamp_mem (h : 0 < lastStamp stamp l) : ∃ e ∈ l, stamp e = lastStamp stamp l := by
  obtain ⟨p,e,rfl⟩ := ends_of_lastStamp_pos h
  exact ⟨e,List.mem_append_right _ (List.mem_singleton_self e),(lastStamp_concat p e).symm⟩

/-- In a log whose terms never go down, an earlier end is not in a later term. -/
theorem lastStamp_mono (hs : l.Pairwise (fun d e => stamp d ≤ stamp e)) (hp : P <+: l) :
    lastStamp stamp P ≤ lastStamp stamp l := by
  obtain ⟨r,rfl⟩ := hp
  rcases List.eq_nil_or_concat r with rfl | ⟨r,e,rfl⟩
  · rw [List.append_nil]
  · rw [List.concat_eq_append,← List.append_assoc,lastStamp_concat]
    rcases Nat.eq_zero_or_pos (lastStamp stamp P) with h0 | h0
    · rw [h0]
      exact Nat.zero_le _
    · obtain ⟨d,hd,he⟩ := lastStamp_mem h0
      rw [← he]
      exact (List.pairwise_append.mp hs).2.2 d hd e (by simp)

/-- What is before a place in a grounded log is grounded. -/
theorem State.Grounded.down (h : s.Grounded stamp l) (hp : P <+: l) : s.Grounded stamp P :=
  fun p e he => h p e (he.trans hp)

/-- Leaders only ever add to what they wrote. -/
theorem State.Grounded.mono (h : s.Grounded stamp l)
    (hl : ∀ T L, s.led T = some L → ∃ L', s'.led T = some L' ∧ L <+: L') : s'.Grounded stamp l := by
  intro p e he
  obtain ⟨L,hL,hp⟩ := h p e he
  obtain ⟨L',hL',hLL⟩ := hl _ _ hL
  exact ⟨L',hL',hp.trans hLL⟩

/-- All of a grounded log was written by the leader of its last term. -/
theorem State.Grounded.last (h : s.Grounded stamp l) (h0 : 0 < lastStamp stamp l) :
    ∃ L, s.led (lastStamp stamp l) = some L ∧ l <+: L := by
  obtain ⟨p,e,rfl⟩ := ends_of_lastStamp_pos h0
  rw [lastStamp_concat]
  exact h p e (List.prefix_refl _)

end Stamps

section Facts
variable (h : Inv Q stamp base s)
include h

private theorem Inv.pos_of_live (hl : s.Live Q stamp T P) : 0 < T ∧ 0 < P.length := by
  obtain ⟨⟨L,hL,-⟩,hs,-⟩ := hl
  have h0 := (h.written hL).1
  obtain ⟨p,e,rfl⟩ := ends_of_lastStamp_pos (hs.symm ▸ h0)
  exact ⟨h0,by rw [List.length_append]; exact Nat.succ_pos _⟩

/-- In a grounded log terms never go down. -/
theorem Inv.sorted (hg : s.Grounded stamp l) : l.Pairwise (fun d e => stamp d ≤ stamp e) := by
  rcases List.eq_nil_or_concat l with rfl | ⟨p,e,rfl⟩
  · exact .nil
  · rw [List.concat_eq_append] at hg ⊢
    obtain ⟨L,hL,hp⟩ := hg p e (List.prefix_refl _)
    exact (h.written hL).2.2.1.sublist hp.sublist

/-- Nobody has anything of a leader that has not written, or in a term to come. -/
theorem Inv.acked_of_lt (ht : s.term i < T) : s.acked i T = 0 := by
  rcases Nat.eq_zero_or_pos (s.acked i T) with h0 | h0
  · exact h0
  · exact absurd (h.acks h0).1 (Nat.not_le.mpr ht)

/-- A candidate with a log no older than one that has P has P. -/
theorem Inv.upToDate_live (hl : s.Live Q stamp T P) {b : List E} (hb : s.Grounded stamp b) (hg : s.Grounded stamp l)
    (hp : P <+: l) (hu : UpToDate stamp b l) : P <+: b := by
  obtain ⟨hT,-⟩ := h.pos_of_live hl
  have hlast : T ≤ lastStamp stamp l := hl.2.1 ▸ lastStamp_mono (h.sorted hg) hp
  rcases hu with hu | ⟨hu,hlen⟩
  · -- the candidate's log is by a leader of a term after T, who has P
    obtain ⟨L,hL,hbL⟩ := hb.last (by omega)
    have hPL := h.complete hl (by omega) hL
    rcases List.prefix_or_prefix_of_prefix hPL hbL with hPb | hbP
    · exact hPb
    · obtain ⟨⟨K,hK,hPK⟩,-,-⟩ := hl
      obtain ⟨e,he,hs⟩ := lastStamp_mem (show 0 < lastStamp stamp b by omega)
      have := (h.written hK).2.2.2 e (hPK.subset (hbP.subset he))
      omega
  · -- both logs are by the same leader
    obtain ⟨L,hL,hlL⟩ := hg.last (by omega)
    obtain ⟨L',hL',hbL⟩ := hb.last (by omega)
    rw [← hu,hL] at hL'
    cases hL'
    exact hp.trans (List.prefix_of_prefix_length_le hlL hbL hlen)

end Facts

section Steps
variable [DecidableEq N]

section Advance
variable (h : Inv Q stamp base s) (ht : s.term i ≤ T)
include ht

private theorem advance_le (j : N) : s.term j ≤ (s.advance i T).term j := by
  change s.term j ≤ Function.update s.term i T j
  rw [Function.update_apply]
  split_ifs with hj
  · exact hj ▸ ht
  · exact Nat.le_refl _

private theorem live_of_advance {T₀ : Nat} (hl : (s.advance i T).Live Q stamp T₀ P) : s.Live Q stamp T₀ P :=
  ⟨hl.1,hl.2.1,Q.mono (fun j hj => hj.imp_right (Nat.le_trans (advance_le ht j))) hl.2.2⟩

include h

private theorem Inv.advance : Inv Q stamp base (s.advance i T) where
  born j := Nat.le_trans (h.born j) (advance_le ht j)
  acks hk := ⟨Nat.le_trans (h.acks hk).1 (advance_le ht _),(h.acks hk).2⟩
  votes hv := ⟨Nat.le_trans (h.votes hv).1 (advance_le ht _),(h.votes hv).2⟩
  bids hb := ⟨(h.bids hb).1,Nat.le_trans (h.bids hb).2.1 (advance_le ht _),(h.bids hb).2.2⟩
  written hL := h.written hL
  begun hL := ⟨Q.mono (fun j hj => Nat.le_trans hj (advance_le ht j)) (h.begun hL).1,(h.begun hL).2⟩
  leaders := by
    intro U c hl
    obtain ⟨hq,hs,hle,hlog⟩ := h.leaders hl
    have hle' := advance_le ht c
    exact ⟨hq,hs,Nat.le_trans hle hle',fun he => hlog (Nat.le_antisymm (he ▸ hle') hle)⟩
  logs j := ⟨(h.logs j).1,fun e he => Nat.le_trans ((h.logs j).2 e he) (advance_le ht j)⟩
  current := by
    intro j L P hL hp hk
    rcases Nat.lt_or_ge (s.term j) ((s.advance i T).term j) with hlt | hge
    · have h0 : s.acked j ((s.advance i T).term j) = 0 := h.acked_of_lt hlt
      have hk : P.length ≤ s.acked j ((s.advance i T).term j) := hk
      rw [h0] at hk
      rw [List.eq_nil_of_length_eq_zero (Nat.le_zero.mp hk)]
      exact List.nil_prefix
    · have he := Nat.le_antisymm hge (advance_le ht j)
      rw [he] at hL hk
      exact h.current hL hp hk
  told hk := h.told hk
  complete hl := h.complete (live_of_advance ht hl)
  kept hl := h.kept (live_of_advance ht hl)
  backed hl := h.backed (live_of_advance ht hl)

end Advance

private theorem Inv.voted {B : List E} (h : Inv Q stamp base s) (ht : s.term i = T) (hv : ∀ c' ∈ s.voted i T, c' = c)
    (hb : s.bid T c = some B) (hB : ∀ {T₀ P}, s.Live Q stamp T₀ P → P.length ≤ s.acked i T₀ → T₀ < T → P <+: B) :
    Inv Q stamp base (s.vote i c T) where
  born := h.born
  acks := h.acks
  votes := by
    intro j U d hj
    change put s.voted i T (some c) j U = some d at hj
    by_cases hx : j = i ∧ U = T
    · obtain ⟨rfl,rfl⟩ := hx
      rw [put_same] at hj
      cases hj
      exact ⟨Nat.le_of_eq ht.symm,by rw [show (s.vote j c U).bid U c = some B from hb]; rfl⟩
    · rw [put_other _ hx] at hj
      exact h.votes hj
  bids := h.bids
  written := h.written
  begun := h.begun
  leaders := by
    intro U d hd
    obtain ⟨hq,hrest⟩ := h.leaders hd
    refine ⟨Q.mono (fun j hj => ?_) hq,hrest⟩
    change put s.voted i T (some c) j U = some d
    by_cases hx : j = i ∧ U = T
    · obtain ⟨rfl,rfl⟩ := hx
      rw [put_same,hv d hj]
    · rw [put_other _ hx]
      exact hj
  logs := h.logs
  current := h.current
  told := h.told
  complete := h.complete
  kept := h.kept
  backed := by
    intro j U U' d B' P hl hk hlt hj hB'
    change put s.voted i T (some c) j U' = some d at hj
    by_cases hx : j = i ∧ U' = T
    · obtain ⟨rfl,rfl⟩ := hx
      rw [put_same] at hj
      cases hj
      cases hb.symm.trans hB'
      exact hB hl hk hlt
    · rw [put_other _ hx] at hj
      exact h.backed hl hk hlt hj hB'

private theorem Inv.vote {B : List E} (h : Inv Q stamp base s) (ht : s.term i = T) (hv : ∀ c' ∈ s.voted i T, c' = c)
    (hb : s.bid T c = some B) (hu : UpToDate stamp B (s.log i)) : Inv Q stamp base (s.vote i c T) :=
  h.voted ht hv hb (fun hl hk _ => h.upToDate_live hl (h.bids hb).2.2.1 (h.logs i).1 (h.kept hl hk) hu)

private theorem Inv.stand (h : Inv Q stamp base s) (ht : s.term c = T) (hT : base < T) (hn : s.bid T c = none)
    (hs : ∀ e ∈ s.log c, stamp e < T) : Inv Q stamp base (s.stand c T) := by
  have hbid : ∀ {U d B}, (s.stand c T).bid U d = some B → (U = T ∧ d = c ∧ B = s.log c) ∨ s.bid U d = some B := by
    intro U d B hb
    change put s.bid T c (some (s.log c)) U d = some B at hb
    by_cases hx : U = T ∧ d = c
    · obtain ⟨rfl,rfl⟩ := hx
      rw [put_same] at hb
      cases hb
      exact .inl ⟨rfl,rfl,rfl⟩
    · rw [put_other _ hx] at hb
      exact .inr hb
  refine ⟨h.born,h.acks,?_,?_,h.written,h.begun,h.leaders,h.logs,h.current,h.told,h.complete,h.kept,?_⟩
  · intro j U d hj
    obtain ⟨hle,hsome⟩ := h.votes hj
    refine ⟨hle,?_⟩
    change (put s.bid T c (some (s.log c)) U d).isSome
    by_cases hx : U = T ∧ d = c
    · obtain ⟨rfl,rfl⟩ := hx
      rw [put_same]
      rfl
    · rw [put_other _ hx]
      exact hsome
  · intro U d B hb
    rcases hbid hb with ⟨rfl,rfl,rfl⟩ | hb
    · exact ⟨hT,Nat.le_of_eq ht.symm,(h.logs d).1,hs⟩
    · exact h.bids hb
  · intro j U U' d B P hl hk hlt hj hb
    rcases hbid hb with ⟨rfl,rfl,rfl⟩ | hb
    · have hsome := (h.votes hj).2
      rw [hn] at hsome
      cases hsome
    · exact h.backed hl hk hlt hj hb

private theorem Inv.campaign (h : Inv Q stamp base s) (ht : s.term c < T) :
    Inv Q stamp base (((s.advance c T).stand c T).vote c c T) := by
  have hterm : (s.advance c T).term c = T := Function.update_self ..
  have hbid : s.bid T c = none := by
    rw [Option.eq_none_iff_forall_ne_some]
    intro B hB
    exact absurd (h.bids hB).2.1 (Nat.not_le.mpr ht)
  have hs : ∀ e ∈ s.log c, stamp e < T := fun e he => Nat.lt_of_le_of_lt ((h.logs c).2 e he) ht
  have hi := (h.advance (Nat.le_of_lt ht)).stand hterm (Nat.lt_of_le_of_lt (h.born c) ht) hbid hs
  refine hi.voted hterm (fun d hd => ?_) (put_same _ _ _ _) (fun hl hk _ => hi.kept hl hk)
  exact absurd (h.votes hd).1 (Nat.not_le.mpr ht)

section Write
variable {es : List E}

private theorem led_of_write {U : Nat} {L' : List E} (hL : (s.write c T (s.log c ++ es)).led U = some L') :
    (U = T ∧ L' = s.log c ++ es) ∨ (U ≠ T ∧ s.led U = some L') := by
  change Function.update s.led T (some (s.log c ++ es)) U = some L' at hL
  rw [Function.update_apply] at hL
  split_ifs at hL with hU
  · exact .inl ⟨hU,(Option.some.inj hL).symm⟩
  · exact .inr ⟨hU,hL⟩

private theorem write_acked_self : (s.write c T (s.log c ++ es)).acked c T = (s.log c ++ es).length := put_same ..

private theorem write_acked {j : N} {U : Nat} (hx : ¬(j = c ∧ U = T)) :
    (s.write c T (s.log c ++ es)).acked j U = s.acked j U := put_other _ hx

private theorem write_log_self : (s.write c T (s.log c ++ es)).log c = s.log c ++ es := Function.update_self ..

private theorem write_log {j : N} (hj : j ≠ c) : (s.write c T (s.log c ++ es)).log j = s.log j :=
  Function.update_of_ne hj ..

private theorem log_le_write (j : N) : s.log j <+: (s.write c T (s.log c ++ es)).log j := by
  by_cases hj : j = c
  · subst hj
    rw [write_log_self]
    exact List.prefix_append _ _
  · rw [write_log hj]

private theorem live_of_write_other {U : Nat} (hU : U ≠ T) (hl : (s.write c T (s.log c ++ es)).Live Q stamp U P) :
    s.Live Q stamp U P := by
  obtain ⟨⟨L,hL,hp⟩,hs,hq⟩ := hl
  obtain ⟨rfl,-⟩ | ⟨-,hL⟩ := led_of_write hL
  · exact (hU rfl).elim
  · refine ⟨⟨L,hL,hp⟩,hs,Q.mono (fun j hj => ?_) hq⟩
    rwa [write_acked (fun hx => hU hx.2)] at hj

variable (h : Inv Q stamp base s) (hold : s.led T = some (s.log c) ∨ s.led T = none ∧ s.bid T c = some (s.log c))
include hold

private theorem write_led (U : Nat) (L : List E) (hL : s.led U = some L) :
    ∃ L', (s.write c T (s.log c ++ es)).led U = some L' ∧ L <+: L' := by
  change ∃ L', Function.update s.led T (some (s.log c ++ es)) U = some L' ∧ L <+: L'
  rw [Function.update_apply]
  split_ifs with hU
  · subst hU
    rcases hold with hc | ⟨hc,-⟩
    · cases hc.symm.trans hL
      exact ⟨_,rfl,List.prefix_append _ _⟩
    · cases hc.symm.trans hL
  · exact ⟨L,hL,List.prefix_refl _⟩

include h

omit [DecidableEq N] in
private theorem acked_le_log (j : N) : s.acked j T ≤ (s.log c).length := by
  rcases Nat.eq_zero_or_pos (s.acked j T) with h0 | h0
  · rw [h0]
    exact Nat.zero_le _
  · obtain ⟨-,L,hL,hle⟩ := h.acks h0
    rcases hold with hc | ⟨hc,-⟩
    · cases hc.symm.trans hL
      exact hle
    · cases hc.symm.trans hL

private theorem acked_le_write (j : N) (U : Nat) : s.acked j U ≤ (s.write c T (s.log c ++ es)).acked j U := by
  by_cases hx : j = c ∧ U = T
  · obtain ⟨rfl,rfl⟩ := hx
    rw [write_acked_self,List.length_append]
    exact Nat.le_trans (acked_le_log h hold j) (Nat.le_add_right _ _)
  · rw [write_acked hx]

private theorem write_grounded (he : ∀ e ∈ es, stamp e = T) :
    (s.write c T (s.log c ++ es)).Grounded stamp (s.log c ++ es) := by
  intro p e hp
  by_cases hin : p ++ [e] <+: s.log c
  · exact ((h.logs c).1.mono (write_led hold)) p e hin
  · have hmem : e ∈ es := by
      obtain ⟨r,hr⟩ := hp
      rcases List.append_eq_append_iff.mp hr.symm with ⟨a,ha,hb⟩ | ⟨a,ha,hb⟩
      · rcases List.eq_nil_or_concat a with rfl | ⟨a',d,rfl⟩
        · exact (hin (by rw [ha,List.append_nil])).elim
        · rw [List.concat_eq_append,← List.append_assoc] at ha
          obtain ⟨-,hd⟩ := List.append_inj' ha rfl
          cases hd
          rw [hb]
          simp
      · exact (hin ⟨a,ha.symm⟩).elim
    refine ⟨_,?_,hp⟩
    rw [he e hmem]
    exact Function.update_self ..

variable (ht : s.term c = T)
include ht

private theorem write_acks {j : N} {U : Nat} (hk : 0 < (s.write c T (s.log c ++ es)).acked j U) :
    U ≤ s.term j ∧ ∃ L, (s.write c T (s.log c ++ es)).led U = some L ∧
      (s.write c T (s.log c ++ es)).acked j U ≤ L.length := by
  by_cases hx : j = c ∧ U = T
  · obtain ⟨rfl,rfl⟩ := hx
    exact ⟨Nat.le_of_eq ht.symm,_,Function.update_self ..,Nat.le_of_eq write_acked_self⟩
  · rw [write_acked hx] at hk ⊢
    obtain ⟨hle,L,hL,hn⟩ := h.acks hk
    obtain ⟨L',hL',hp⟩ := write_led hold U L hL
    exact ⟨hle,L',hL',Nat.le_trans hn hp.length_le⟩

omit hold in
private theorem write_leaders (hq : Q.Quorum (fun i => s.voted i T = some c)) {U : Nat} {d : N}
    (hd : (s.write c T (s.log c ++ es)).leader U = some d) : Q.Quorum (fun i => s.voted i U = some d) ∧
      ((s.write c T (s.log c ++ es)).led U).isSome ∧ U ≤ s.term d ∧
      (s.term d = U → (s.write c T (s.log c ++ es)).led U = some ((s.write c T (s.log c ++ es)).log d)) := by
  change Function.update s.leader T (some c) U = some d at hd
  rw [Function.update_apply] at hd
  split_ifs at hd with hU
  · cases hd
    subst hU
    refine ⟨hq,?_,Nat.le_of_eq ht.symm,fun _ => ?_⟩
    · rw [show (s.write c U (s.log c ++ es)).led U = _ from Function.update_self ..]
      rfl
    · rw [write_log_self]
      exact Function.update_self ..
  · obtain ⟨hq',hs,hle,hlog⟩ := h.leaders hd
    have hled : (s.write c T (s.log c ++ es)).led U = s.led U := Function.update_of_ne hU ..
    refine ⟨hq',by rw [hled]; exact hs,hle,fun hterm => ?_⟩
    rw [hled,write_log,hlog hterm]
    rintro rfl
    exact hU (hterm.symm.trans ht)

private theorem write_logs (he : ∀ e ∈ es, stamp e = T) (j : N) :
    (s.write c T (s.log c ++ es)).Grounded stamp ((s.write c T (s.log c ++ es)).log j) ∧
      ∀ e ∈ (s.write c T (s.log c ++ es)).log j, stamp e ≤ s.term j := by
  by_cases hj : j = c
  · subst hj
    rw [write_log_self]
    refine ⟨write_grounded h hold he,fun e hm => ?_⟩
    rcases List.mem_append.mp hm with hm | hm
    · exact (h.logs j).2 e hm
    · exact Nat.le_of_eq ((he e hm).trans ht.symm)
  · rw [write_log hj]
    exact ⟨(h.logs j).1.mono (write_led hold),(h.logs j).2⟩

private theorem write_current {j : N} {L P : List E} (hL : (s.write c T (s.log c ++ es)).led (s.term j) = some L)
    (hp : P <+: L) (hk : P.length ≤ (s.write c T (s.log c ++ es)).acked j (s.term j)) :
    P <+: (s.write c T (s.log c ++ es)).log j := by
  by_cases hj : j = c
  · subst hj
    rw [ht] at hL
    obtain ⟨-,rfl⟩ | ⟨hne,-⟩ := led_of_write hL
    · rw [write_log_self]
      exact hp
    · exact (hne rfl).elim
  · rw [write_acked (fun hx => hj hx.1)] at hk
    rw [write_log hj]
    rcases Nat.eq_zero_or_pos P.length with h0 | h0
    · rw [List.eq_nil_of_length_eq_zero h0]
      exact List.nil_prefix
    · obtain ⟨-,L₀,hL₀,hle⟩ := h.acks (Nat.lt_of_lt_of_le h0 hk)
      obtain ⟨L',hL',hpp⟩ := write_led hold _ _ hL₀
      cases hL.symm.trans hL'
      exact h.current hL₀ (List.prefix_of_prefix_length_le hp hpp (Nat.le_trans hk hle)) hk

variable (hT : 0 < T)
include hT

private theorem live_of_write (hl : (s.write c T (s.log c ++ es)).Live Q stamp T P) :
    (s.Live Q stamp T P ∧ P <+: s.log c) ∨ ∀ j, P.length ≤ (s.write c T (s.log c ++ es)).acked j T → j = c := by
  -- either P was written before, or nobody but the leader can have it yet
  obtain ⟨⟨L,hL,hp⟩,hs,hq⟩ := hl
  obtain ⟨-,rfl⟩ | ⟨hne,-⟩ := led_of_write hL
  swap
  · exact (hne rfl).elim
  obtain ⟨p,e,rfl⟩ := ends_of_lastStamp_pos (hs.symm ▸ hT)
  by_cases hshort : s.led T = some (s.log c) ∧ (p ++ [e]).length ≤ (s.log c).length
  · have hpc : p ++ [e] <+: s.log c := List.prefix_of_prefix_length_le hp (List.prefix_append _ _) hshort.2
    refine .inl ⟨⟨⟨_,hshort.1,hpc⟩,hs,Q.mono (fun j hj => ?_) hq⟩,hpc⟩
    by_cases hj' : j = c
    · exact .inr (hj' ▸ Nat.le_of_eq ht)
    · rwa [write_acked (fun hx => hj' hx.1)] at hj
  · refine .inr (fun j hk => ?_)
    by_contra hj
    rw [write_acked (fun hx => hj hx.1)] at hk
    have h0 : 0 < s.acked j T := Nat.lt_of_lt_of_le (by simp) hk
    obtain ⟨-,L,hL,hle⟩ := h.acks h0
    rcases hold with hc | ⟨hc,-⟩
    · cases hc.symm.trans hL
      exact hshort ⟨hc,Nat.le_trans hk hle⟩
    · cases hc.symm.trans hL

private theorem write_written (he : ∀ e ∈ es, stamp e = T) {U : Nat} {L' : List E}
    (hL : (s.write c T (s.log c ++ es)).led U = some L') :
    0 < U ∧ (s.write c T (s.log c ++ es)).Grounded stamp L' ∧ L'.Pairwise (fun d e => stamp d ≤ stamp e) ∧
      ∀ e ∈ L', stamp e ≤ U := by
  obtain ⟨rfl,rfl⟩ | ⟨-,hL⟩ := led_of_write hL
  · obtain ⟨hg,hs⟩ := h.logs c
    refine ⟨hT,write_grounded h hold he,?_,fun e hm => ?_⟩
    · refine List.pairwise_append.mpr ⟨h.sorted hg,List.pairwise_of_forall_mem_list ?_,fun d hd e hm => ?_⟩
      · exact fun d hd e hm => by rw [he d hd,he e hm]
      · rw [he e hm,← ht]
        exact hs d hd
    · rcases List.mem_append.mp hm with hm | hm
      · exact ht ▸ hs e hm
      · exact Nat.le_of_eq (he e hm)
  · obtain ⟨h0,hg,hrest⟩ := h.written hL
    exact ⟨h0,hg.mono (write_led hold),hrest⟩

private theorem write_complete (hq : Q.Quorum (fun i => s.voted i T = some c)) {U U' : Nat} {P L' : List E}
    (hlive : (s.write c T (s.log c ++ es)).Live Q stamp U P) (hlt : U < U')
    (hL' : (s.write c T (s.log c ++ es)).led U' = some L') : P <+: L' := by
  by_cases hU : U = T
  · subst hU
    obtain ⟨rfl,-⟩ | ⟨-,hL'⟩ := led_of_write hL'
    · exact (Nat.lt_irrefl _ hlt).elim
    obtain ⟨hlive,-⟩ | hown := live_of_write h hold ht hT hlive
    · exact h.complete hlive hlt hL'
    · -- the leader of U' was voted for by members who had left the term
      obtain ⟨j,hj,hj'⟩ := Q.meet hlive.2.2 (h.begun hL').1
      have hterm : ¬s.term j ≤ U := Nat.not_le.mpr (Nat.lt_of_lt_of_le hlt hj')
      have := hown j (hj.resolve_right hterm)
      exact (hterm (this ▸ Nat.le_of_eq ht)).elim
  · replace hlive := live_of_write_other hU hlive
    obtain ⟨rfl,rfl⟩ | ⟨-,hL'⟩ := led_of_write hL'
    · rcases hold with hc | ⟨-,hb⟩
      · exact (h.complete hlive hlt hc).trans (List.prefix_append _ _)
      · obtain ⟨j,hj,hj'⟩ := Q.meet hlive.2.2 hq
        have hterm : ¬s.term j ≤ U := Nat.not_le.mpr (Nat.lt_of_lt_of_le hlt (h.votes hj').1)
        exact (h.backed hlive (hj.resolve_right hterm) hlt hj' hb).trans (List.prefix_append _ _)
    · exact h.complete hlive hlt hL'

private theorem write_kept {j : N} {U : Nat} {P : List E} (hlive : (s.write c T (s.log c ++ es)).Live Q stamp U P)
    (hk : P.length ≤ (s.write c T (s.log c ++ es)).acked j U) : P <+: (s.write c T (s.log c ++ es)).log j := by
  by_cases hU : U = T
  · subst hU
    by_cases hj : j = c
    · subst hj
      obtain ⟨⟨L,hL,hp⟩,-⟩ := hlive
      obtain ⟨-,rfl⟩ | ⟨hne,-⟩ := led_of_write hL
      · rw [write_log_self]
        exact hp
      · exact (hne rfl).elim
    · obtain ⟨hlive,-⟩ | hown := live_of_write h hold ht hT hlive
      · rw [write_acked (fun hx => hj hx.1)] at hk
        rw [write_log hj]
        exact h.kept hlive hk
      · exact (hj (hown j hk)).elim
  · rw [write_acked (fun hx => hU hx.2)] at hk
    exact (h.kept (live_of_write_other hU hlive) hk).trans (log_le_write j)

private theorem write_backed {j d : N} {U U' : Nat} {B P : List E}
    (hlive : (s.write c T (s.log c ++ es)).Live Q stamp U P)
    (hk : P.length ≤ (s.write c T (s.log c ++ es)).acked j U) (hlt : U < U') (hv : s.voted j U' = some d)
    (hb : s.bid U' d = some B) : P <+: B := by
  by_cases hU : U = T
  · subst hU
    have hj : j ≠ c := by
      rintro rfl
      exact Nat.not_le.mpr hlt (ht ▸ (h.votes hv).1)
    obtain ⟨hlive,-⟩ | hown := live_of_write h hold ht hT hlive
    · rw [write_acked (fun hx => hj hx.1)] at hk
      exact h.backed hlive hk hlt hv hb
    · exact (hj (hown j hk)).elim
  · rw [write_acked (fun hx => hU hx.2)] at hk
    exact h.backed (live_of_write_other hU hlive) hk hlt hv hb

/-- A leader with the votes of a quorum, at the start of its term or later in it, adds to its log. -/
theorem Inv.write (he : ∀ e ∈ es, stamp e = T) (hq : Q.Quorum (fun i => s.voted i T = some c)) :
    Inv Q stamp base (s.write c T (s.log c ++ es)) where
  born := h.born
  acks := write_acks h hold ht
  votes := h.votes
  bids hb := by
    obtain ⟨hbase,hle,hg,hs⟩ := h.bids hb
    exact ⟨hbase,hle,hg.mono (write_led hold),hs⟩
  written := write_written h hold ht hT he
  begun := by
    intro U L hL
    obtain ⟨rfl,rfl⟩ | ⟨hU,hL⟩ := led_of_write hL
    · exact ⟨Q.mono (fun j hj => (h.votes hj).1) hq,.inr ⟨c,Function.update_self ..⟩⟩
    · refine ⟨(h.begun hL).1,(h.begun hL).2.imp_right (fun ⟨d,hd⟩ => ⟨d,?_⟩)⟩
      exact (Function.update_of_ne hU ..).trans hd
  leaders := write_leaders h ht hq
  logs := write_logs h hold ht he
  current := write_current h hold ht
  told := by
    intro U hk
    obtain ⟨L,hL,hle,hs,hq'⟩ := h.told hk
    obtain ⟨L',hL',r,rfl⟩ := write_led hold U L hL
    refine ⟨_,hL',Nat.le_trans hle (by simp),?_,Q.mono (fun j hj => Nat.le_trans hj (acked_le_write h hold j U)) hq'⟩
    rwa [show (s.write c T (s.log c ++ es)).announced U = s.announced U from rfl,List.take_append_of_le_length hle]
  complete := write_complete h hold ht hT hq
  kept := write_kept h hold ht hT
  backed := write_backed h hold ht hT

end Write

section Accept
variable (h : Inv Q stamp base s) (ht : s.term i = T) (hL : s.led T = some L) (hp : P <+: L)

private theorem accept_acked {j : N} {U : Nat} (hx : ¬(j = i ∧ U = T)) : (s.accept i T P).acked j U = s.acked j U :=
  put_other _ hx

private theorem accept_acked_self : (s.accept i T P).acked i T = max (s.acked i T) P.length := put_same ..

private theorem accept_log {j : N} (hj : j ≠ i) : (s.accept i T P).log j = s.log j := Function.update_of_ne hj ..

open Classical in
private theorem accept_log_cases (s : State N E) (i : N) (T : Nat) (P : List E) :
    (s.accept i T P).log i = s.log i ∧ P <+: s.log i ∨ (s.accept i T P).log i = P ∧ ¬P <+: s.log i := by
  rw [show (s.accept i T P).log i = if P <+: s.log i then s.log i else P from Function.update_self ..]
  split_ifs with hin
  · exact .inl ⟨rfl,hin⟩
  · exact .inr ⟨rfl,hin⟩

private theorem accept_takes : P <+: (s.accept i T P).log i := by
  obtain ⟨he,hin⟩ | ⟨he,-⟩ := accept_log_cases s i T P
  · rw [he]
    exact hin
  · rw [he]

include hp in
/-- Taking over from a leader, a member loses nothing that the leader has too. -/
theorem accept_keeps {R : List E} (hR : R <+: s.log i) (hRL : R <+: L) : R <+: (s.accept i T P).log i := by
  obtain ⟨he,-⟩ | ⟨he,hnot⟩ := accept_log_cases s i T P
  · rw [he]
    exact hR
  · rw [he]
    rcases List.prefix_or_prefix_of_prefix hRL hp with hRP | hPR
    · exact hRP
    · exact (hnot (hPR.trans hR)).elim

include ht in
private theorem live_of_accept {U : Nat} {R : List E} (hl : (s.accept i T P).Live Q stamp U R) :
    s.Live Q stamp U R := by
  refine ⟨hl.1,hl.2.1,Q.mono (fun j hj => ?_) hl.2.2⟩
  by_cases hx : j = i ∧ U = T
  · obtain ⟨rfl,rfl⟩ := hx
    exact .inr (Nat.le_of_eq ht)
  · rwa [accept_acked hx] at hj

include h ht hL hp

private theorem accept_current {R : List E} (hR : R <+: L) (hk : R.length ≤ (s.accept i T P).acked i T) :
    R <+: (s.accept i T P).log i := by
  rw [accept_acked_self] at hk
  rcases (by omega : R.length ≤ s.acked i T ∨ R.length ≤ P.length) with hk | hk
  · subst ht
    exact accept_keeps hp (h.current hL hR hk) hR
  · exact (List.prefix_of_prefix_length_le hR hp hk).trans accept_takes

private theorem accept_acks {j : N} {U : Nat} (hk : 0 < (s.accept i T P).acked j U) :
    U ≤ s.term j ∧ ∃ L, s.led U = some L ∧ (s.accept i T P).acked j U ≤ L.length := by
  by_cases hx : j = i ∧ U = T
  · obtain ⟨rfl,rfl⟩ := hx
    refine ⟨Nat.le_of_eq ht.symm,L,hL,?_⟩
    rw [accept_acked_self]
    refine Nat.max_le.mpr ⟨?_,hp.length_le⟩
    rcases Nat.eq_zero_or_pos (s.acked j U) with h0 | h0
    · rw [h0]
      exact Nat.zero_le _
    · obtain ⟨-,L',hL',hle⟩ := h.acks h0
      cases hL.symm.trans hL'
      exact hle
  · rw [accept_acked hx] at hk ⊢
    exact h.acks hk

omit h in
private theorem accept_led (hlead : s.led (s.term c) = some (s.log c)) :
    s.led (s.term c) = some ((s.accept i T P).log c) := by
  by_cases hi : c = i
  · subst hi
    subst ht
    obtain ⟨he,-⟩ | ⟨-,hnot⟩ := accept_log_cases s c (s.term c) P
    · rw [he]
      exact hlead
    · cases hL.symm.trans hlead
      exact (hnot hp).elim
  · rw [accept_log hi]
    exact hlead

private theorem accept_logs (j : N) :
    s.Grounded stamp ((s.accept i T P).log j) ∧ ∀ e ∈ (s.accept i T P).log j, stamp e ≤ s.term j := by
  by_cases hj : j = i
  · subst hj
    obtain ⟨he,-⟩ | ⟨he,-⟩ := accept_log_cases s j T P
    · rw [he]
      exact h.logs j
    · rw [he]
      obtain ⟨-,hg,-,hs⟩ := h.written hL
      exact ⟨hg.down hp,fun e he => ht ▸ hs e (hp.subset he)⟩
  · rw [accept_log hj]
    exact h.logs j

private theorem accept_kept {j : N} {U : Nat} {R : List E} (hl : s.Live Q stamp U R)
    (hk : R.length ≤ (s.accept i T P).acked j U) :
    R <+: (s.accept i T P).log j := by
  by_cases hj : j = i
  · subst hj
    by_cases hU : U = T
    · subst hU
      obtain ⟨⟨L',hL',hR⟩,-⟩ := hl
      cases hL.symm.trans hL'
      exact accept_current h ht hL hp hR hk
    · rw [accept_acked (fun hx => hU hx.2)] at hk
      have h0 := (h.pos_of_live hl).2
      have hle := (h.acks (Nat.lt_of_lt_of_le h0 hk)).1
      exact accept_keeps hp (h.kept hl hk) (h.complete hl (by omega) hL)
  · rw [accept_log hj]
    rw [accept_acked (fun hx => hj hx.1)] at hk
    exact h.kept hl hk

/-- A member takes over what the leader of its term wrote. -/
theorem Inv.accept : Inv Q stamp base (s.accept i T P) where
  born := h.born
  acks := accept_acks h ht hL hp
  votes := h.votes
  bids := h.bids
  written := h.written
  begun := h.begun
  leaders := by
    intro U c hc
    obtain ⟨hq,hs,hle,hlog⟩ := h.leaders hc
    refine ⟨hq,hs,hle,fun hterm => ?_⟩
    cases hterm
    exact accept_led ht hL hp (hlog rfl)
  logs := accept_logs h ht hL hp
  current := by
    intro j L' R hL' hR hk
    by_cases hj : j = i
    · subst hj
      have hL' : s.led (s.term j) = some L' := hL'
      rw [ht] at hL'
      cases hL.symm.trans hL'
      refine accept_current h ht hL hp hR ?_
      rwa [show (s.accept j T P).term j = T from ht] at hk
    · rw [accept_log hj]
      rw [accept_acked (fun hx => hj hx.1)] at hk
      exact h.current hL' hR hk
  told := by
    intro U hk
    obtain ⟨L',hL',hle,hs,hq⟩ := h.told hk
    refine ⟨L',hL',hle,hs,Q.mono (fun j hj => Nat.le_trans hj ?_) hq⟩
    by_cases hx : j = i ∧ U = T
    · obtain ⟨rfl,rfl⟩ := hx
      rw [accept_acked_self]
      exact Nat.le_max_left _ _
    · rw [accept_acked hx]
  complete hl := h.complete (live_of_accept ht hl)
  kept hl := accept_kept h ht hL hp (live_of_accept ht hl)
  backed := by
    intro j U U' c B R hl hk hlt hv hb
    by_cases hx : j = i ∧ U = T
    · obtain ⟨rfl,rfl⟩ := hx
      have := (h.votes hv).1
      omega
    · rw [accept_acked hx] at hk
      exact h.backed (live_of_accept ht hl) hk hlt hv hb

end Accept

omit [DecidableEq N] in
private theorem Inv.announce {k : Nat} (h : Inv Q stamp base s) (hL : s.led T = some L) (hk : k ≤ L.length)
    (hs : lastStamp stamp (L.take k) = T) (hq : Q.Quorum (fun i => k ≤ s.acked i T)) :
    Inv Q stamp base (s.announce T k) := by
  refine ⟨h.born,h.acks,h.votes,h.bids,h.written,h.begun,h.leaders,h.logs,h.current,?_,h.complete,h.kept,h.backed⟩
  intro U hU
  have he : (s.announce T k).announced U = if U = T then k else s.announced U := Function.update_apply ..
  rw [he] at hU ⊢
  split_ifs at hU ⊢ with hx
  · subst hx
    exact ⟨L,hL,hk,hs,hq⟩
  · exact h.told hU

omit [DecidableEq N] in
/-- Nobody else has been elected in a term with a candidate that has a quorum's votes. -/
theorem Inv.unled (h : Inv Q stamp base s) (hb : s.bid T c = some l) (hq : Q.Quorum (fun i => s.voted i T = some c))
    (hn : s.leader T ≠ some c) : s.led T = none := by
  rw [Option.eq_none_iff_forall_ne_some]
  intro L hL
  obtain ⟨-,rfl | ⟨d,hd⟩⟩ := h.begun hL
  · exact Nat.lt_irrefl _ (h.bids hb).1
  · obtain ⟨j,hj,hj'⟩ := Q.meet hq (h.leaders hd).1
    cases hj.symm.trans hj'
    exact hn hd

/-- Whatever happens, the invariant stays. -/
theorem Inv.step (h : Inv Q stamp base s) (hs : Step Q stamp s s') : Inv Q stamp base s' := by
  cases hs with
  | advance ht => exact h.advance ht
  | campaign ht => exact h.campaign ht
  | vote ht hv hb hu => exact h.vote ht hv hb hu
  | elect ht hb hq hn he =>
    refine h.write (.inr ⟨h.unled hb hq hn,hb⟩) ht (Nat.zero_lt_of_lt (h.bids hb).1) (fun d hd => ?_) hq
    rw [List.mem_singleton.mp hd]
    exact he
  | append ht hl he =>
    obtain ⟨hq,-,-,hlog⟩ := h.leaders hl
    exact h.write (.inl (hlog ht)) ht (h.written (hlog ht)).1 he hq
  | accept ht hl hp => exact h.accept ht hl hp
  | announce hl hk hk' hs hq => exact h.announce hl hk' hs hq

/-- Terms go up, and what has happened stays so: votes, bids, leaders, what they wrote and
announced, and what was acknowledged. -/
structure Grows (s s' : State N E) : Prop where
  term : ∀ i, s.term i ≤ s'.term i
  voted : ∀ {i T c}, s.voted i T = some c → s'.voted i T = some c
  bid : ∀ {T c B}, s.bid T c = some B → s'.bid T c = some B
  leader : ∀ {T c}, s.leader T = some c → s'.leader T = some c
  led : ∀ {T L}, s.led T = some L → ∃ L', s'.led T = some L' ∧ L <+: L'
  acked : ∀ i T, s.acked i T ≤ s'.acked i T
  announced : ∀ T, s.announced T ≤ s'.announced T

omit [DecidableEq N] in
theorem Grows.refl (s : State N E) : Grows s s :=
  ⟨fun _ => Nat.le_refl _,id,id,id,fun hL => ⟨_,hL,List.prefix_refl _⟩,fun _ _ => Nat.le_refl _,fun _ => Nat.le_refl _⟩

omit [DecidableEq N] in
/-- What has happened stays so over several steps. -/
theorem Grows.trans {s'' : State N E} (h : Grows s s') (h' : Grows s' s'') : Grows s s'' where
  term i := Nat.le_trans (h.term i) (h'.term i)
  voted hv := h'.voted (h.voted hv)
  bid hb := h'.bid (h.bid hb)
  leader hl := h'.leader (h.leader hl)
  led hL := by
    obtain ⟨L',hL',hp⟩ := h.led hL
    obtain ⟨L'',hL'',hp'⟩ := h'.led hL'
    exact ⟨L'',hL'',hp.trans hp'⟩
  acked i T := Nat.le_trans (h.acked i T) (h'.acked i T)
  announced T := Nat.le_trans (h.announced T) (h'.announced T)

private theorem grows_advance (ht : s.term i ≤ T) : Grows s (s.advance i T) :=
  { Grows.refl s with term := advance_le ht }

private theorem grows_vote (hv : ∀ c' ∈ s.voted i T, c' = c) : Grows s (s.vote i c T) :=
  { Grows.refl s with
    voted := by
      intro j U d hj
      change put s.voted i T (some c) j U = some d
      by_cases hx : j = i ∧ U = T
      · obtain ⟨rfl,rfl⟩ := hx
        rw [put_same,hv d hj]
      · rw [put_other _ hx]
        exact hj }

private theorem grows_stand (hn : s.bid T c = none) : Grows s (s.stand c T) :=
  { Grows.refl s with
    bid := by
      intro U d B hb
      change put s.bid T c (some (s.log c)) U d = some B
      rw [put_other]
      · exact hb
      · rintro ⟨rfl,rfl⟩
        cases hn.symm.trans hb }

private theorem grows_write {es : List E} (h : Inv Q stamp base s)
    (hold : s.led T = some (s.log c) ∨ s.led T = none ∧ s.bid T c = some (s.log c)) (hl : ∀ d ∈ s.leader T, d = c) :
    Grows s (s.write c T (s.log c ++ es)) :=
  { Grows.refl s with
    leader := by
      intro U d hd
      change Function.update s.leader T (some c) U = some d
      rw [Function.update_apply]
      split_ifs with hU
      · subst hU
        rw [hl d hd]
      · exact hd
    led := fun hL => write_led hold _ _ hL
    acked := acked_le_write h hold }

private theorem grows_accept (s : State N E) (i : N) (T : Nat) (P : List E) : Grows s (s.accept i T P) :=
  { Grows.refl s with
    acked := by
      intro j U
      by_cases hx : j = i ∧ U = T
      · obtain ⟨rfl,rfl⟩ := hx
        rw [accept_acked_self]
        exact Nat.le_max_left _ _
      · rw [accept_acked hx] }

omit [DecidableEq N] in
private theorem grows_announce {k : Nat} (hk : s.announced T ≤ k) : Grows s (s.announce T k) :=
  { Grows.refl s with
    announced := by
      intro U
      rw [show (s.announce T k).announced U = if U = T then k else s.announced U from Function.update_apply ..]
      split_ifs with hU
      · exact hU ▸ hk
      · exact Nat.le_refl _ }

private theorem Grows.step (h : Inv Q stamp base s) (hs : Step Q stamp s s') : Grows s s' := by
  cases hs with
  | advance ht => exact grows_advance ht
  | @campaign c T ht =>
    have hbid : s.bid T c = none := by
      rw [Option.eq_none_iff_forall_ne_some]
      intro B hB
      exact absurd (h.bids hB).2.1 (Nat.not_le.mpr ht)
    have hstand : Grows (s.advance c T) ((s.advance c T).stand c T) := grows_stand hbid
    refine (grows_advance (Nat.le_of_lt ht)).trans (hstand.trans (grows_vote (fun d hd => ?_)))
    exact absurd (h.votes hd).1 (Nat.not_le.mpr ht)
  | vote _ hv => exact grows_vote hv
  | elect _ hb hq hn =>
    have hnone := h.unled hb hq hn
    refine grows_write h (.inr ⟨hnone,hb⟩) (fun d hd => ?_)
    have hsome := (h.leaders hd).2.1
    rw [hnone] at hsome
    cases hsome
  | append ht hl =>
    exact grows_write h (.inl ((h.leaders hl).2.2.2 ht)) (fun d hd => Option.some.inj (hd.symm.trans hl))
  | accept => exact grows_accept ..
  | announce _ hk => exact grows_announce hk

/-- Several steps. -/
inductive Steps (Q : Quorums N) (stamp : E → Nat) : State N E → State N E → Prop where
  | refl (s : State N E) : Steps Q stamp s s
  | tail {s s' s'' : State N E} (h : Steps Q stamp s s') (hs : Step Q stamp s' s'') : Steps Q stamp s s''

/-- Over a run the invariant stays, and so does what has happened. -/
theorem Inv.steps (h : Inv Q stamp base s) (hs : Steps Q stamp s s') : Inv Q stamp base s' ∧ Grows s s' := by
  induction hs with
  | refl => exact ⟨h,.refl s⟩
  | tail _ hs ih => exact ⟨ih.1.step hs,ih.2.trans (.step ih.1 hs)⟩

end Steps

/-- What the leader of T has announced. -/
def State.Settled (s : State N E) (T : Nat) (P : List E) : Prop := ∃ L, s.led T = some L ∧ P <+: L.take (s.announced T)

/-- What is settled stays settled. -/
theorem State.Settled.grows (hs : s.Settled T P) (hg : Grows s s') : s'.Settled T P := by
  obtain ⟨L,hL,hp⟩ := hs
  obtain ⟨L',hL',hpp⟩ := hg.led hL
  refine ⟨L',hL',hp.trans ?_⟩
  refine List.prefix_of_prefix_length_le ((List.take_prefix _ _).trans hpp) (List.take_prefix _ _) ?_
  have := hg.announced T
  have := hpp.length_le
  simp only [List.length_take]
  omega

/-- All have the same log, written and announced in the first term. -/
def State.start (base : Nat) (l : List E) : State N E where
  term _ := base
  log _ := l
  voted _ _ := none
  bid _ _ := none
  leader _ := none
  led T := if T = base then some l else none
  acked _ T := if T = base then l.length else 0
  announced T := if T = base then l.length else 0

section Start

private theorem start_led {L : List E} (hL : (State.start base l : State N E).led T = some L) : T = base ∧ L = l := by
  change (if T = base then some l else none) = some L at hL
  split_ifs at hL with hT
  exact ⟨hT,(Option.some.inj hL).symm⟩

private theorem start_led_self : (State.start base l : State N E).led base = some l := if_pos rfl

private theorem start_pos {x : Nat} (h : 0 < if T = base then x else 0) : T = base := by
  by_contra hT
  rw [if_neg hT] at h
  exact Nat.lt_irrefl 0 h

private theorem start_grounded (hs : ∀ e ∈ l, stamp e = base) :
    (State.start base l : State N E).Grounded stamp l := by
  intro p e hp
  rw [hs e (hp.subset (by simp))]
  exact ⟨l,start_led_self,hp⟩

/-- A group that starts with one log in every member satisfies the invariant. -/
theorem Inv.start (hb : 0 < base) (hl : l ≠ []) (hs : ∀ e ∈ l, stamp e = base) (hq : Q.Quorum (fun _ => True)) :
    Inv Q stamp base (State.start base l : State N E) where
  born _ := Nat.le_refl _
  acks hk := by
    obtain rfl := start_pos hk
    exact ⟨Nat.le_refl _,l,start_led_self,Nat.le_of_eq (if_pos rfl)⟩
  votes hv := by cases hv
  bids hv := by cases hv
  written hL := by
    obtain ⟨rfl,rfl⟩ := start_led hL
    refine ⟨hb,start_grounded hs,List.pairwise_of_forall_mem_list (fun d hd e he => ?_),fun e he => Nat.le_of_eq (hs e he)⟩
    rw [hs d hd,hs e he]
  begun hL := by
    obtain ⟨rfl,-⟩ := start_led hL
    exact ⟨Q.mono (fun _ _ => Nat.le_refl _) hq,.inl rfl⟩
  leaders hv := by cases hv
  logs i := ⟨start_grounded hs,fun e he => Nat.le_of_eq (hs e he)⟩
  current hL hp _ := by
    obtain ⟨-,rfl⟩ := start_led hL
    exact hp
  told := by
    intro T hk
    obtain rfl := start_pos hk
    have hall : (State.start T l : State N E).announced T = l.length := if_pos rfl
    refine ⟨l,start_led_self,Nat.le_of_eq hall,?_,Q.mono (fun i _ => ?_) hq⟩
    · rw [hall,List.take_length]
      obtain ⟨p,e,rfl⟩ := (List.eq_nil_or_concat l).resolve_left hl
      rw [List.concat_eq_append,lastStamp_concat]
      exact hs e (by simp)
    · exact Nat.le_refl _
  complete hlive hlt hL := by
    obtain ⟨⟨L',hL',-⟩,-⟩ := hlive
    have := (start_led hL).1
    have := (start_led hL').1
    omega
  kept hlive _ := by
    obtain ⟨⟨L',hL',hp⟩,-⟩ := hlive
    obtain ⟨-,rfl⟩ := start_led hL'
    exact hp
  backed _ _ _ hv := by cases hv

end Start

section Settled
variable (h : Inv Q stamp base s)
include h

/-- Every later leader has what was announced. -/
theorem Inv.settled_led (hs : s.Settled T P) (hle : T ≤ T') (hL : s.led T' = some L) : P <+: L := by
  obtain ⟨K,hK,hp⟩ := hs
  rcases Nat.eq_or_lt_of_le hle with rfl | hlt
  · cases hK.symm.trans hL
    exact hp.trans (List.take_prefix _ _)
  · rcases Nat.eq_zero_or_pos (s.announced T) with h0 | h0
    · rw [h0,List.take_zero,List.prefix_nil] at hp
      rw [hp]
      exact List.nil_prefix
    · obtain ⟨K',hK',hle,hs,hq⟩ := h.told h0
      cases hK.symm.trans hK'
      refine hp.trans (h.complete ⟨⟨K,hK,List.take_prefix _ _⟩,hs,Q.mono (fun i hi => ?_) hq⟩ hlt hL)
      exact .inl (Nat.le_trans (List.length_take_le _ _) hi)

/-- What has been announced is one sequence. -/
theorem Inv.settled_total {R : List E} (hp : s.Settled T P) (hr : s.Settled T' R) : P <+: R ∨ R <+: P := by
  obtain ⟨L,hL,hpL⟩ := hp
  obtain ⟨L',hL',hrL⟩ := hr
  rcases Nat.le_total T T' with hle | hle
  · exact List.prefix_or_prefix_of_prefix (h.settled_led ⟨L,hL,hpL⟩ hle hL') (hrL.trans (List.take_prefix _ _))
  · exact List.prefix_or_prefix_of_prefix (hpL.trans (List.take_prefix _ _)) (h.settled_led ⟨L',hL',hrL⟩ hle hL)

end Settled

end LeaderLog
end Zuul.Lib
