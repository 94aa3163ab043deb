import Zuul.Lib.ChangeLog
import Zuul.Fsm.Commands

/-! The effect of a command as seen from one key, with what is published about it. -/
namespace Zuul.Fsm
open Lib
variable {f g : FSM} {k : Str} {v : Bytes} {evs : List Event}

/-- What becomes of the lock at a key while the counter goes from lo to hi, and
whether the key is announced. -/
inductive Turn (lo hi : Nat) (v : Bytes) (k : Str) : Option Lock → Option Lock → Bool → Prop where
  | same (o : Option Lock) : Turn lo hi v k o o false
  | granted (c : Str) {n : Nat} (hn : lo < n) (hle : n ≤ hi) : Turn lo hi v k none (some (.granted k c n v)) true
  | joined (lk : Lock) (c : Str) (n : Nat) : Turn lo hi v k (some lk) (some (lk.enqueued c n v)) false
  | handed (lk : Lock) {n : Nat} (hn : lo < n) (hle : lk.queue ≠ [] → n ≤ hi) :
      Turn lo hi v k (some lk) (lk.next n) true
  | left (lk : Lock) (c : Str) : Turn lo hi v k (some lk) (some (lk.dequeue c)) false
  | published (lk : Lock) : Turn lo hi v k (some lk) (some { lk with value := v }) true

/-- The events about one key. -/
abbrev about (k : Str) (evs : List Event) : List Event := ChangeLog.about Event.key k evs

private theorem about_append (k : Str) (a b : List Event) : about k (a ++ b) = about k a ++ about k b :=
  ChangeLog.about_append ..

private theorem announce_key {e : Event} (he : e ∈ f.announce k) : e.key = k := by
  have hemit : ∀ {c t w}, e ∈ f.emit k c t w → e.key = k := by
    intro c t w hm
    rw [FSM.emit] at hm
    split at hm
    · rw [List.mem_singleton.mp hm]
    · cases hm
  rw [FSM.announce] at he
  split at he
  · exact hemit he
  · exact hemit he

private theorem about_announce (f : FSM) (k : Str) : about k (f.announce k) = f.announce k := by
  rw [about,ChangeLog.about,List.filter_eq_self]
  intro e he
  exact decide_eq_true (announce_key he)

private theorem about_announce_other (f : FSM) {a : Str} (h : k ≠ a) : about k (f.announce a) = [] := by
  rw [about,ChangeLog.about,List.filter_eq_nil_iff]
  intro e he hk
  exact h ((of_decide_eq_true hk).symm.trans (announce_key he))

private theorem about_announce_all (f : FSM) (names : List Str) (hn : names.Nodup) (k : Str) :
    about k (names.flatMap f.announce) = if k ∈ names then f.announce k else [] := by
  induction names with
  | nil => rfl
  | cons a names ih =>
    obtain ⟨ha,hn⟩ := List.nodup_cons.mp hn
    rw [List.flatMap_cons,about_append,ih hn]
    by_cases hk : k = a
    · subst hk
      rw [if_neg ha,if_pos List.mem_cons_self,about_announce,List.append_nil]
    · rw [about_announce_other f hk,List.nil_append]
      simp only [List.mem_cons,hk,false_or]

/-- The state change and the events of a command, read at the key k. -/
def TurnAt (f g : FSM) (v : Bytes) (evs : List Event) (k : Str) : Prop :=
  ∃ told, Turn f.seq g.seq v k (f.locks.lookup k) (g.locks.lookup k) told ∧
    about k evs = if told then g.announce k else []

private theorem turn_of_edit {a : Str} (he : KeyEdit a f g) (told : Bool)
    (ht : Turn f.seq g.seq v a (f.locks.lookup a) (g.locks.lookup a) told) (k : Str) :
    TurnAt f g v (if told then g.announce a else []) k := by
  by_cases hk : k = a
  · subst hk
    refine ⟨told,ht,?_⟩
    cases told with
    | true => exact about_announce g k
    | false => rfl
  · refine ⟨false,?_,?_⟩
    · rw [he.locks hk]
      exact .same _
    · cases told with
      | true => exact about_announce_other g hk
      | false => rfl

private theorem turn_of_drop {c : Str} {ls : Lease} (h : Inv f) (hc : f.leases.lookup c = some ls) (k : Str) :
    TurnAt f (f.dropLease c ls).1 v (f.dropLease c ls).2 k := by
  have hd := dropLease_spec h hc
  have hm : k ∈ sortedSet ls.held ↔ ∃ lk, f.locks.lookup k = some lk ∧ lk.holder = c := by
    rw [sortedSet,KeyedMap.mem_sortedKeys]
    exact h.held id hc
  have hev : about k (f.dropLease c ls).2 =
      if k ∈ sortedSet ls.held then (f.dropLease c ls).1.announce k else [] := by
    rw [hd.events]
    exact about_announce_all _ _ (KeyedMap.sortedKeys_nodup _) k
  cases hk : f.locks.lookup k with
  | none =>
    refine ⟨false,?_,?_⟩
    · rw [hk,hd.absent hk]
      exact .same _
    · rw [hev,if_neg]
      · rfl
      · rw [hm]
        rintro ⟨lk,hlk,_⟩
        cases hk.symm.trans hlk
  | some lk =>
    by_cases hh : lk.holder = c
    · obtain ⟨n,h1,h2,h3⟩ := hd.taken hk hh
      refine ⟨true,?_,?_⟩
      · rw [hk,h3]
        exact .handed lk h1 h2
      · rw [hev,if_pos (hm.mpr ⟨lk,hk,hh⟩)]
        rfl
    · refine ⟨false,?_,?_⟩
      · rw [hk,hd.left hk hh]
        exact .left lk c
      · rw [hev,if_neg]
        · rfl
        · rw [hm]
          rintro ⟨lk',hlk,hh'⟩
          cases hk.symm.trans hlk
          exact hh hh'

/-- Every effect takes one turn at every key. -/
theorem effect_turn (h : Inv f) (he : Effect f v g evs) (k : Str) : TurnAt f g v evs k := by
  cases he with
  | idle => exact ⟨false,.same _,rfl⟩
  | @grant a c ls hk hc =>
    refine turn_of_edit (grant_edit hk hc) true ?_ k
    rw [hk,grant_lock h hk hc]
    refine .granted c (Nat.lt_succ_self _) ?_
    rw [grant_fsm hk]
    exact Nat.le_refl _
  | @enqueue a c lk ls hk hc hn =>
    refine turn_of_edit (enqueue_edit hc lk v) false ?_ k
    rw [hk,enqueue_lock]
    exact .joined lk c _
  | @giveUp a lk hk =>
    refine turn_of_edit (giveUp_edit h hk) true ?_ k
    rw [hk,giveUp_lock h hk]
    refine .handed lk (Nat.lt_succ_self _) (fun hq => ?_)
    rw [giveUp_seq h hk,if_neg hq]
  | @cut a c lk ls hk hc =>
    refine turn_of_edit (cut_edit hc) false ?_ k
    rw [hk,cut_lock hc]
    exact .left lk c
  | @publish a lk hk =>
    refine turn_of_edit (setValue_edit f a _) true ?_ k
    have hl : (f.setLock a { lk with value := v }).locks.lookup a = some { lk with value := v } := AList.lookup_insert _
    rw [hk,hl]
    exact .published lk
  | lease => exact ⟨false,.same _,rfl⟩
  | drop hc => exact turn_of_drop h hc k

/-- Every command takes one turn at every key. -/
theorem step_turn (h : Inv f) {cmd : Command} (hn : cmd.Named) (k : Str) :
    TurnAt f (f.step cmd).fsm cmd.value (f.step cmd).events k := effect_turn h.bump (step_effect h hn) k

private theorem effect_seq (h : Inv f) (he : Effect f v g evs) : f.seq ≤ g.seq := by
  cases he with
  | grant hk hc => exact (grant_edit hk hc).seq
  | enqueue hk hc hn => exact (enqueue_edit hc _ v).seq
  | giveUp hk => exact (giveUp_edit h hk).seq
  | cut hk hc => exact (cut_edit hc).seq
  | drop hc => exact (dropLease_spec h hc).seq
  | _ => exact Nat.le_refl _

private theorem effect_revision (h : Inv f) (he : Effect f v g evs) :
    g.revision = f.revision ∧ g.notifier = f.notifier := by
  have of_edit : ∀ {a g}, KeyEdit a f g → g.revision = f.revision ∧ g.notifier = f.notifier :=
    fun he => ⟨he.revision,he.notifier⟩
  cases he with
  | grant hk hc => exact of_edit (grant_edit hk hc)
  | enqueue hk hc hn => exact of_edit (enqueue_edit hc _ v)
  | giveUp hk => exact of_edit (giveUp_edit h hk)
  | cut hk hc => exact of_edit (cut_edit hc)
  | drop hc =>
    have hd := dropLease_spec h hc
    exact ⟨hd.revision,hd.notifier⟩
  | _ => exact ⟨rfl,rfl⟩

/-- The counter never goes down. -/
theorem step_seq (h : Inv f) {cmd : Command} (hn : cmd.Named) : f.seq ≤ (f.step cmd).fsm.seq :=
  effect_seq (f := f.bump) h.bump (step_effect h hn)

/-- One command is one revision, and the notifier stays. -/
theorem step_revision (h : Inv f) {cmd : Command} (hn : cmd.Named) :
    (f.step cmd).fsm.revision = f.revision + 1 ∧ (f.step cmd).fsm.notifier = f.notifier :=
  effect_revision h.bump (step_effect h hn)

end Zuul.Fsm
