import Zuul.Lib.Runs
import Zuul.Watch.Hub

/-! What a subscription sees of the notifications, under every interleaving. -/
namespace Zuul.Watch
open Lib
open Fsm (Str Event str)

section Invariant
variable (stripe : Str → Fin numStripes)

/-- The subscription is of the key and not closed. -/
def Sys.Open (s : Sys) (key : Str) (i : Nat) : Prop :=
  ∃ sub, s.subs[i]? = some sub ∧ sub.key = key ∧ sub.till = none

/-- The running Notify has an event for the subscription, the last of all. -/
def Sys.Awaits (s : Sys) (e : Event) (i : Nat) : Prop :=
  ∃ sub, s.subs[i]? = some sub ∧ sub.key = e.key ∧ sub.own s.log = sub.own s.log.dropLast ++ [e]

def Sys.Half (s : Sys) (i : Nat) : Prop := ∃ sub, s.subs[i]? = some sub ∧ sub.box.half = true

structure NotifyGood (s : Sys) (n : Notifying) : Prop where
  nodup : n.due.Nodup
  due : ∀ i ∈ n.due, s.Awaits n.event i
  current : ∀ i ∈ n.current, s.Half i

/-- A subscription has coalesced what was signalled to it. -/
structure SubGood (s : Sys) (i : Nat) (sub : Sub) : Prop where
  since : sub.since ≤ s.log.length
  till : ∀ n ∈ sub.till, n ≤ s.log.length
  coalesces : sub.box.Coalesces (sub.phase = .woken) (sub.own (s.signalled i)) sub.got

/-- What holds between any two steps. The maps hold the open subscriptions. -/
structure Good (s : Sys) : Prop where
  inner : ∀ st k i, i ∈ s.hub.inner st k ↔ st = stripe k ∧ s.Open k i
  subs : ∀ (i : Nat) (sub : Sub), s.subs[i]? = some sub → SubGood s i sub
  busy : ∀ n ∈ s.busy, NotifyGood s n

variable {stripe} {s s' : Sys} {i j : Nat} {sub sub' : Sub}

/-- The invariant holds while nobody watches. -/
theorem good_init : Good stripe {} where
  inner := by
    intro st k i
    simp [Hub.inner,Sys.Open]
  subs := by
    intro i sub hs
    cases hs
  busy := by
    intro n hn
    cases hn

/-- The subscriptions still to be signalled are those of the running Notify. -/
theorem mem_due {n : Notifying} (hn : n ∈ s.busy) : i ∈ s.due ↔ i ∈ n.due := by
  rw [Sys.due,Option.mem_def.mp hn]
  rfl

/-- A subscription still to be signalled has not got the last event. -/
theorem signalled_of_due (h : i ∈ s.due) : s.signalled i = s.log.dropLast := by
  rw [Sys.signalled,if_pos (List.contains_iff_mem.mpr h)]

/-- The others have got all events. -/
theorem signalled_of_not (h : i ∉ s.due) : s.signalled i = s.log := by
  rw [Sys.signalled,if_neg (mt List.contains_iff_mem.mp h)]

private theorem signalled_congr (hl : s'.log = s.log) (hd : i ∈ s'.due ↔ i ∈ s.due) :
    s'.signalled i = s.signalled i := by
  by_cases hm : i ∈ s.due
  · rw [signalled_of_due hm,signalled_of_due (hd.mpr hm),hl]
  · rw [signalled_of_not hm,signalled_of_not (mt hd.mp hm),hl]

/-- A subscription that a step neither notifies nor signals stays as it is. -/
theorem SubGood.frame (h : SubGood s i sub) (hl : s'.log = s.log) (hd : i ∈ s'.due ↔ i ∈ s.due) : SubGood s' i sub where
  since := hl ▸ h.since
  till := hl ▸ h.till
  coalesces := signalled_congr hl hd ▸ h.coalesces

section Put

private theorem get_set (hs : s.subs[i]? = some sub) (sub' : Sub) (j : Nat) :
    (s.subs.set i sub')[j]? = if j = i then some sub' else s.subs[j]? := by
  split
  · rename_i hj
    subst hj
    exact List.getElem?_set_self (List.getElem?_eq_some_iff.mp hs).1
  · rename_i hj
    exact List.getElem?_set_ne (Ne.symm hj)

variable {busy : Option Notifying}

private theorem open_put (hs : s.subs[i]? = some sub) (hsame : Same sub sub') (k : Str) :
    (s.put i sub' busy).Open k j ↔ s.Open k j := by
  rw [Sys.put,Sys.Open,Sys.Open]
  dsimp only
  rw [get_set hs]
  split
  · rename_i hj
    subst hj
    simp only [hs,Option.some.injEq,exists_eq_left',hsame.key,hsame.till]
  · rfl

private theorem awaits_put (hs : s.subs[i]? = some sub) (hsame : Same sub sub') {e : Event} (h : s.Awaits e j) :
    (s.put i sub' busy).Awaits e j := by
  obtain ⟨x,hx,hk,ho⟩ := h
  rw [Sys.put,Sys.Awaits]
  dsimp only
  rw [get_set hs]
  split
  · rename_i hj
    subst hj
    obtain rfl : sub = x := Option.some.inj (hs.symm.trans hx)
    refine ⟨sub',rfl,hsame.key.trans hk,?_⟩
    rw [hsame.own,hsame.own]
    exact ho
  · exact ⟨x,hx,hk,ho⟩

private theorem half_put (hs : s.subs[i]? = some sub) (hh : sub'.box.half = sub.box.half) (h : s.Half j) :
    (s.put i sub' busy).Half j := by
  obtain ⟨x,hx,hxh⟩ := h
  rw [Sys.put,Sys.Half]
  dsimp only
  rw [get_set hs]
  split
  · rename_i hj
    subst hj
    obtain rfl : sub = x := Option.some.inj (hs.symm.trans hx)
    exact ⟨sub',rfl,hh.trans hxh⟩
  · exact ⟨x,hx,hxh⟩

/-- A step that touches one subscription without opening or closing it, and the
running Notify. -/
theorem Good.put (h : Good stripe s) (hs : s.subs[i]? = some sub) (hsame : Same sub sub')
    (hd : ∀ j ≠ i, j ∈ (s.put i sub' busy).due ↔ j ∈ s.due) (hn : ∀ n ∈ busy, NotifyGood (s.put i sub' busy) n)
    (hb : sub'.box.Coalesces (sub'.phase = .woken) (sub.own ((s.put i sub' busy).signalled i)) sub'.got) :
    Good stripe (s.put i sub' busy) where
  inner := by
    intro st k j
    rw [open_put hs hsame]
    exact h.inner st k j
  subs := by
    intro j x hx
    replace hx := (get_set hs sub' j).symm.trans hx
    split at hx
    · rename_i hj
      subst hj
      cases hx
      have hg := h.subs j sub hs
      exact ⟨hsame.since ▸ hg.since,hsame.till ▸ hg.till,hsame.own ▸ hb⟩
    · rename_i hj
      exact (h.subs j x hx).frame rfl (hd j hj)
  busy := hn

/-- A step of a subscriber. -/
theorem Good.putSub (h : Good stripe s) (hs : s.subs[i]? = some sub) (hsame : Same sub sub')
    (hh : sub'.box.half = sub.box.half)
    (hb : sub'.box.Coalesces (sub'.phase = .woken) (sub.own (s.signalled i)) sub'.got) :
    Good stripe (s.put i sub' s.busy) := by
  refine h.put hs hsame (fun _ _ => Iff.rfl) ?_ hb
  intro n hn
  obtain ⟨hnodup,hdue,hcur⟩ := h.busy n hn
  exact ⟨hnodup,fun j hj => awaits_put hs hsame (hdue j hj),fun j hj => half_put hs hh (hcur j hj)⟩

end Put

section Signal
variable {n : Notifying}

/-- The first half of signal. -/
theorem Good.store (h : Good stripe s) (hn : n ∈ s.busy) (hi : i ∈ n.due) (hs : s.subs[i]? = some sub) :
    Good stripe (s.put i { sub with box := sub.box.record n.event }
      (some { n with due := n.due.erase i, current := some i })) := by
  obtain ⟨hnodup,hdue,-⟩ := h.busy n hn
  obtain ⟨x,hx,_,ho⟩ := hdue i hi
  obtain rfl : sub = x := Option.some.inj (hs.symm.trans hx)
  have hsame : Same sub { sub with box := sub.box.record n.event } := ⟨rfl,rfl,rfl⟩
  refine h.put hs hsame ?_ ?_ ?_
  · intro j hj
    rw [mem_due hn]
    exact List.mem_erase_of_ne hj
  · intro n' hn'
    cases hn'
    refine ⟨hnodup.erase i,fun j hj => awaits_put hs hsame (hdue j (List.mem_of_mem_erase hj)),?_⟩
    intro j hj
    cases hj
    exact ⟨_,(get_set hs _ i).trans (if_pos rfl),rfl⟩
  · have hc := (h.subs i sub hs).coalesces
    have hgone : i ∉ n.due.erase i := hnodup.not_mem_erase
    rw [signalled_of_due ((mem_due hn).mpr hi)] at hc
    rw [signalled_of_not hgone]
    exact ho ▸ hc.record n.event

/-- The second half. -/
theorem Good.wake (h : Good stripe s) (hn : n ∈ s.busy) (hi : i ∈ n.current) (hs : s.subs[i]? = some sub) :
    Good stripe (s.put i { sub with box := sub.box.post } (some { n with current := none })) := by
  obtain ⟨hnodup,hdue,hcur⟩ := h.busy n hn
  obtain ⟨x,hx,hh⟩ := hcur i hi
  obtain rfl : sub = x := Option.some.inj (hs.symm.trans hx)
  have hsame : Same sub { sub with box := sub.box.post } := ⟨rfl,rfl,rfl⟩
  have hkept : ∀ j, j ∈ (s.put i { sub with box := sub.box.post } (some { n with current := none })).due ↔ j ∈ s.due :=
    fun j => (mem_due hn).symm
  refine h.put hs hsame (fun j _ => hkept j) ?_ ?_
  · intro n' hn'
    cases hn'
    exact ⟨hnodup,fun j hj => awaits_put hs hsame (hdue j hj),fun j hj => (by cases hj)⟩
  · rw [signalled_congr (by rfl) (hkept i)]
    exact (h.subs i sub hs).coalesces.post hh

private theorem Good.unlock (h : Good stripe s) (hn : n ∈ s.busy) (hd : n.due = []) :
    Good stripe { s with busy := none } where
  inner := h.inner
  subs := by
    intro j x hx
    refine (h.subs j x hx).frame rfl ?_
    rw [mem_due hn,hd]
    rfl
  busy := by
    intro n hn
    cases hn

end Signal

section Next

/-- Next enters its select, or leaves it with the context. -/
theorem Good.setPhase (h : Good stripe s) (hs : s.subs[i]? = some sub) {phase : Phase} (hp : sub.phase ≠ .woken)
    (hp' : phase ≠ .woken) : Good stripe (s.put i { sub with phase := phase } s.busy) :=
  have hsame : Same sub { sub with phase := phase } := ⟨rfl,rfl,rfl⟩
  h.putSub hs hsame rfl ((h.subs i sub hs).coalesces.congr (iff_of_false hp' hp))

private theorem Good.take (h : Good stripe s) (hs : s.subs[i]? = some sub) {box : Mailbox Event}
    (ht : sub.box.take = some box) :
    Good stripe (s.put i { sub with box := box, phase := .woken } s.busy) :=
  have hsame : Same sub { sub with box := box, phase := .woken } := ⟨rfl,rfl,rfl⟩
  h.putSub hs hsame (Mailbox.take_half ht) ((h.subs i sub hs).coalesces.take ht rfl)

private theorem Good.read (h : Good stripe s) (hs : s.subs[i]? = some sub) (hp : sub.phase = .woken) :
    Good stripe (s.put i { sub with phase := .outside, got := sub.got ++ [sub.box.last] } s.busy) :=
  have hsame : Same sub { sub with phase := .outside, got := sub.got ++ [sub.box.last] } := ⟨rfl,rfl,rfl⟩
  h.putSub hs hsame rfl ((h.subs i sub hs).coalesces.read hp _)

end Next

section Subscribe

private theorem get_concat (subs : List Sub) (sub : Sub) (j : Nat) :
    (subs ++ [sub])[j]? = if j = subs.length then some sub else subs[j]? := by
  split
  · rename_i hj
    rw [hj,List.getElem?_concat_length]
  · rename_i hj
    by_cases hlt : j < subs.length
    · exact List.getElem?_append_left hlt
    · rw [List.getElem?_eq_none (by rw [List.length_append,List.length_singleton]; omega),
        List.getElem?_eq_none (by omega)]

private theorem get_old {subs : List Sub} (h : subs[i]? = some sub) (sub' : Sub) : (subs ++ [sub'])[i]? = some sub :=
  (List.getElem?_append_left (List.getElem?_eq_some_iff.mp h).1).trans h

private theorem open_subscribe (args : SubArgs) (k : Str) (j : Nat) :
    (s.subscribe stripe args).Open k j ↔ s.Open k j ∨ (k = args.key ∧ j = s.subs.length) := by
  rw [Sys.subscribe,Sys.Open,Sys.Open]
  dsimp only
  rw [get_concat]
  by_cases hj : j = s.subs.length
  · subst hj
    simp [eq_comm]
  · simp [hj]

private theorem signalled_length_le (s : Sys) (i : Nat) : (s.signalled i).length ≤ s.log.length := by
  rw [Sys.signalled]
  split
  · rw [List.length_dropLast]
    exact Nat.sub_le _ _
  · exact le_rfl

private theorem Good.subscribe (h : Good stripe s) (args : SubArgs) : Good stripe (s.subscribe stripe args) where
  inner := by
    intro st k j
    refine (mem_inner_subscribe s.hub _ st _ k _ j).trans ?_
    rw [h.inner,open_subscribe]
    by_cases hk : k = args.key
    · subst hk
      simp only [true_and,and_or_left]
    · simp only [hk,false_and,and_false,or_false]
  subs := by
    intro j x hx
    replace hx := (get_concat s.subs _ j).symm.trans hx
    split at hx
    · cases hx
      refine ⟨le_rfl,fun n hn => (by cases hn),?_⟩
      rw [own_new (signalled_length_le _ j)]
      exact Mailbox.coalesces_new _ (fun hw => by cases hw)
    · exact (h.subs j x hx).frame rfl Iff.rfl
  busy := by
    intro n hn
    obtain ⟨hnodup,hdue,hcur⟩ := h.busy n hn
    refine ⟨hnodup,?_,?_⟩
    · intro j hj
      obtain ⟨x,hx,hko⟩ := hdue j hj
      exact ⟨x,get_old hx _,hko⟩
    · intro j hj
      obtain ⟨x,hx,hh⟩ := hcur j hj
      exact ⟨x,get_old hx _,hh⟩

end Subscribe

section Close

/-- The lock keeps Close away from a Notify of its key. -/
theorem Good.not_due (h : Good stripe s) (hs : s.subs[i]? = some sub) (hl : ¬s.Locked stripe sub.key) : i ∉ s.due := by
  intro hi
  cases hb : s.busy with
  | none =>
    rw [Sys.due,hb] at hi
    cases hi
  | some n =>
    obtain ⟨x,hx,hk,-⟩ := (h.busy n hb).due i ((mem_due hb).mp hi)
    obtain rfl : sub = x := Option.some.inj (hs.symm.trans hx)
    exact hl ⟨n,hb,congrArg stripe hk.symm⟩

private theorem open_close (hs : s.subs[i]? = some sub) (k : Str) (j : Nat) :
    (s.close stripe i sub).Open k j ↔ s.Open k j ∧ j ≠ i := by
  rw [Sys.close,Sys.Open,Sys.Open]
  dsimp only
  rw [get_set hs]
  by_cases hj : j = i
  · simp [hj]
  · simp [hj]

private theorem SubGood.close (h : SubGood s i sub) (hi : i ∉ s.due) :
    SubGood (s.close stripe i sub) i { sub with till := some (sub.till.getD s.log.length) } where
  since := h.since
  till := by
    intro n hn
    cases hn
    cases ht : sub.till with
    | none => exact le_rfl
    | some n => exact h.till n ht
  coalesces := by
    have hi' : i ∉ (s.close stripe i sub).due := hi
    have hc := h.coalesces
    rw [signalled_of_not hi] at hc
    rw [signalled_of_not hi']
    exact hc

private theorem Good.close (h : Good stripe s) (hs : s.subs[i]? = some sub) (hl : ¬s.Locked stripe sub.key) :
    Good stripe (s.close stripe i sub) where
  inner := by
    intro st k j
    refine (mem_inner_close s.hub _ st _ k i j).trans ?_
    rw [h.inner,open_close hs,and_assoc]
    refine and_congr_right fun hst => and_congr_right fun ho => ?_
    refine not_congr ⟨fun hc => hc.2.2,?_⟩
    rintro rfl
    obtain ⟨x,hx,hk,-⟩ := ho
    obtain rfl : sub = x := Option.some.inj (hs.symm.trans hx)
    exact ⟨hst.trans (congrArg stripe hk.symm),hk.symm,rfl⟩
  subs := by
    intro j x hx
    replace hx := (get_set hs _ j).symm.trans hx
    split at hx
    · rename_i hj
      subst hj
      cases hx
      exact (h.subs j sub hs).close (h.not_due hs hl)
    · exact (h.subs j x hx).frame rfl Iff.rfl
  busy := by
    intro n hn
    obtain ⟨hnodup,hdue,hcur⟩ := h.busy n hn
    have hhalf : ∀ j ∈ n.current, (s.put i { sub with till := some (sub.till.getD s.log.length) } s.busy).Half j :=
      fun j hj => half_put hs rfl (hcur j hj)
    refine ⟨hnodup,?_,hhalf⟩
    intro j hj
    have hji : j ≠ i := by
      rintro rfl
      exact h.not_due hs hl ((mem_due hn).mpr hj)
    obtain ⟨x,hx,hko⟩ := hdue j hj
    exact ⟨x,(List.getElem?_set_ne (Ne.symm hji)).trans hx,hko⟩

end Close

section Notify

private theorem SubGood.notify (h : SubGood s i sub) {e : Event} (hnone : i ∉ s.due)
    (hd : i ∈ (s.notify stripe e).due ↔ sub.key = e.key ∧ sub.till = none) : SubGood (s.notify stripe e) i sub where
  since := by
    rw [Sys.notify,List.length_append]
    exact h.since.trans (Nat.le_add_right _ _)
  till := by
    intro n hn
    rw [Sys.notify,List.length_append]
    exact (h.till n hn).trans (Nat.le_add_right _ _)
  coalesces := by
    have hc := h.coalesces
    rw [signalled_of_not hnone] at hc
    by_cases hi : i ∈ (s.notify stripe e).due
    · rw [signalled_of_due hi,Sys.notify,List.dropLast_concat]
      exact hc
    · rw [signalled_of_not hi,Sys.notify,own_append_of_not h.since h.till (mt hd.mpr hi)]
      exact hc

private theorem Good.notify (h : Good stripe s) (hb : s.busy = none) (e : Event) : Good stripe (s.notify stripe e) where
  inner := h.inner
  subs := by
    intro j x hx
    have hnone : j ∉ s.due := by
      rw [Sys.due,hb]
      exact List.not_mem_nil
    refine (h.subs j x hx).notify hnone ((h.inner _ _ j).trans ?_)
    constructor
    · rintro ⟨-,y,hy,ho⟩
      obtain rfl : x = y := Option.some.inj (hx.symm.trans hy)
      exact ho
    · intro ho
      exact ⟨rfl,x,hx,ho⟩
  busy := by
    intro n hn
    cases hn
    refine ⟨AList.keys_nodup _,?_,fun j hj => (by cases hj)⟩
    intro j hj
    obtain ⟨-,x,hx,hk,ht⟩ := (h.inner _ _ j).mp (AList.mem_keys.mpr hj)
    refine ⟨x,hx,hk,?_⟩
    rw [Sys.notify,List.dropLast_concat]
    exact own_append_of_open (h.subs j x hx).since ht hk.symm

end Notify

/-- Every step keeps the invariant. -/
theorem next_good {a : Action} (h : Good stripe s) (hn : s.next stripe a = some s') : Good stripe s' := by
  cases a with
  | subscribe args =>
    rw [Sys.next] at hn
    split at hn
    · cases hn
    · split_ifs at hn
      cases hn
      exact h.subscribe args
  | close i =>
    obtain ⟨sub,hs,hn⟩ := Option.bind_eq_some_iff.mp hn
    split_ifs at hn with hl
    cases hn
    exact h.close hs hl
  | notify e =>
    rw [Sys.next] at hn
    split_ifs at hn with hb
    cases hn
    exact h.notify (Option.not_isSome_iff_eq_none.mp hb) e
  | store i =>
    obtain ⟨n,hb,hn⟩ := Option.bind_eq_some_iff.mp hn
    obtain ⟨sub,hs,hn⟩ := Option.bind_eq_some_iff.mp hn
    split_ifs at hn with hc
    cases hn
    exact h.store hb (List.contains_iff_mem.mp hc.2) hs
  | wake =>
    obtain ⟨n,hb,hn⟩ := Option.bind_eq_some_iff.mp hn
    obtain ⟨i,hi,hn⟩ := Option.bind_eq_some_iff.mp hn
    obtain ⟨sub,hs,hn⟩ := Option.bind_eq_some_iff.mp hn
    cases hn
    exact h.wake hb hi hs
  | unlock =>
    obtain ⟨n,hb,hn⟩ := Option.bind_eq_some_iff.mp hn
    split_ifs at hn with hc
    cases hn
    exact h.unlock hb hc.1
  | next i =>
    obtain ⟨sub,hs,hn⟩ := Option.bind_eq_some_iff.mp hn
    split_ifs at hn with hp
    cases hn
    exact h.setPhase hs (by simp [hp]) (by simp)
  | take i =>
    obtain ⟨sub,hs,hn⟩ := Option.bind_eq_some_iff.mp hn
    split_ifs at hn
    obtain ⟨box,ht,hn⟩ := Option.map_eq_some_iff.mp hn
    cases hn
    exact h.take hs ht
  | read i =>
    obtain ⟨sub,hs,hn⟩ := Option.bind_eq_some_iff.mp hn
    split_ifs at hn with hp
    cases hn
    exact h.read hs hp
  | done i =>
    obtain ⟨sub,hs,hn⟩ := Option.bind_eq_some_iff.mp hn
    split_ifs at hn with hp
    cases hn
    exact h.setPhase hs (by simp [hp]) (by simp)

end Invariant

/-- The states of the hub under every interleaving. -/
abbrev Reachable (stripe : Str → Fin numStripes) (s : Sys) : Prop :=
  Reaches (Sys.next stripe) (fun _ _ => True) {} s

section Runs
variable {stripe : Str → Fin numStripes} {s : Sys}

private theorem reachable_good (h : Reachable stripe s) : Good stripe s :=
  h.rule good_init (fun _ _ _ hg _ hn => next_good hg hn)

/-- What a subscriber got is, in order, some of the events of its key and time. -/
theorem samples_own (h : Good stripe s) {i : Nat} {sub : Sub} (hs : s.subs[i]? = some sub) :
    Samples (sub.own s.log) sub.got := by
  have hc := (h.subs i sub hs).coalesces.samples
  by_cases hi : i ∈ s.due
  · rw [signalled_of_due hi] at hc
    cases hb : s.busy with
    | none =>
      rw [Sys.due,hb] at hi
      cases hi
    | some n =>
      obtain ⟨x,hx,-,ho⟩ := (h.busy n hb).due i ((mem_due hb).mp hi)
      obtain rfl : sub = x := Option.some.inj (hs.symm.trans hx)
      rw [ho]
      exact hc.append n.event
  · rwa [signalled_of_not hi] at hc

/-- Observers reports the tracked subscriptions that are open. -/
theorem mem_observers (h : Reachable stripe s) (key : Str) (o : Observation) :
    o ∈ s.observers stripe key ↔ (key = [] ∨ o.key = key) ∧
      ∃ (i : Nat) (sub : Sub), s.subs[i]? = some sub ∧ sub.key = o.key ∧ sub.till = none ∧
        sub.track = true ∧ sub.identity = o.identity := by
  have hin := (reachable_good h).inner
  have hcollect : o ∈ s.observers stripe key ↔ o ∈ s.collect key (stripe o.key) := by
    rw [Sys.observers]
    split
    · rename_i hne
      constructor
      · intro ho
        obtain ⟨hk,_⟩ := (mem_collect s key _ o).mp ho
        rwa [hk.resolve_left hne]
      · intro ho
        obtain ⟨hk,_⟩ := (mem_collect s key _ o).mp ho
        rwa [hk.resolve_left hne] at ho
    · rw [List.mem_flatMap]
      constructor
      · rintro ⟨st,_,ho⟩
        obtain ⟨_,i,_,hi,_⟩ := (mem_collect s key st o).mp ho
        rwa [← ((hin st o.key i).mp hi).1]
      · intro ho
        exact ⟨stripe o.key,List.mem_finRange _,ho⟩
  rw [hcollect,mem_collect]
  refine and_congr_right fun _ => exists_congr fun i => ?_
  constructor
  · rintro ⟨sub,hi,hs,htrack,hid⟩
    obtain ⟨-,x,hx,hk,ht⟩ := (hin _ _ i).mp hi
    obtain rfl : sub = x := Option.some.inj (hs.symm.trans hx)
    exact ⟨sub,hs,hk,ht,htrack,hid⟩
  · rintro ⟨sub,hs,hk,ht,htrack,hid⟩
    exact ⟨sub,(hin _ _ i).mpr ⟨rfl,sub,hs,hk,ht⟩,hs,htrack,hid⟩

end Runs
end Zuul.Watch
