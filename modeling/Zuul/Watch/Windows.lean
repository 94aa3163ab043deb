import Mathlib.Data.List.TakeWhile
import Zuul.Watch.Coalescing

/-! What a subscription sees, told by the actions of the run: from its Subscribe to
its first Close. -/
namespace Zuul.Watch
open Lib
open Fsm (Str Event str)

section Actions
variable {acts before after : List Action} {a : Action} {i j : Nat} {key : Str} {args : SubArgs}

def Action.subscribes : Action → Bool
  | .subscribe _ => true
  | _ => false

def Action.closes (i : Nat) : Action → Bool
  | .close j => j == i
  | _ => false

/-- The event of a Notify for the key. -/
def Action.notifies (key : Str) : Action → Option Event
  | .notify e => if e.key = key then some e else none
  | _ => none

/-- The notifications for a key before the first Close of the subscription. -/
def untilClose (key : Str) (i : Nat) (acts : List Action) : List Event :=
  (acts.takeWhile (fun a => !a.closes i)).filterMap (Action.notifies key)

/-- Subscriptions are numbered by their Subscribe. The actions after it are these. -/
def Opened (acts : List Action) (i : Nat) (args : SubArgs) (after : List Action) : Prop :=
  ∃ before, acts = before ++ .subscribe args :: after ∧ before.countP Action.subscribes = i

private theorem Opened.concat (h : Opened acts i args after) (a : Action) :
    Opened (acts ++ [a]) i args (after ++ [a]) := by
  obtain ⟨before,rfl,hi⟩ := h
  exact ⟨before,by rw [List.append_assoc,List.cons_append],hi⟩

private theorem Opened.unique {args' : SubArgs} {after' : List Action} (h : Opened acts i args after)
    (h' : Opened acts i args' after') : args = args' ∧ after = after' := by
  obtain ⟨before,rfl,hi⟩ := h
  obtain ⟨before',he,hi'⟩ := h'
  induction before generalizing before' i with
  | nil =>
    cases before' with
    | nil =>
      cases he
      exact ⟨rfl,rfl⟩
    | cons a before' =>
      obtain ⟨rfl,-⟩ := List.cons.inj he
      rw [← hi,List.countP_cons_of_pos rfl] at hi'
      cases hi'
  | cons a before ih =>
    cases before' with
    | nil =>
      obtain ⟨rfl,-⟩ := List.cons.inj he
      rw [← hi',List.countP_cons_of_pos rfl] at hi
      cases hi
    | cons b before' =>
      obtain ⟨rfl,htail⟩ := List.cons.inj he
      rw [List.countP_cons] at hi hi'
      exact ih rfl before' htail (Nat.add_right_cancel (hi'.trans hi.symm))

private theorem untilClose_of_open (h : ∀ a ∈ acts, a.closes i = false) :
    untilClose key i acts = acts.filterMap (Action.notifies key) := by
  rw [untilClose,List.takeWhile_eq_self_iff.mpr]
  intro a ha
  rw [h a ha]
  rfl

private theorem untilClose_of_closed (h : ¬∀ a ∈ acts, a.closes i = false) :
    untilClose key i (acts ++ [a]) = untilClose key i acts := by
  have hlen : (acts.takeWhile (fun a => !a.closes i)).length ≠ acts.length := by
    intro hlen
    have hself := (List.takeWhile_prefix (fun a : Action => !a.closes i)).eq_of_length hlen
    apply h
    intro b hb
    rw [← hself] at hb
    simpa using List.mem_takeWhile_imp hb
  rw [untilClose,List.takeWhile_append,if_neg hlen]
  rfl

private theorem open_concat (h : ∀ a ∈ acts, a.closes i = false) (ha : a.closes i = false) :
    ∀ b ∈ acts ++ [a], b.closes i = false := by
  intro b hb
  rcases List.mem_append.mp hb with hb | hb
  · exact h b hb
  · rw [List.mem_singleton.mp hb]
    exact ha

private theorem untilClose_of_quiet (ha : a.notifies key = none) :
    untilClose key i (acts ++ [a]) = untilClose key i acts := by
  by_cases h : ∀ a ∈ acts, a.closes i = false
  · rw [untilClose,List.takeWhile_append_of_pos (fun b hb => by rw [h b hb]; rfl),untilClose_of_open h,
      List.filterMap_append]
    have hone : ([a].takeWhile (fun a => !a.closes i)).filterMap (Action.notifies key) = [] := by
      rw [List.takeWhile_cons]
      split
      · rw [List.takeWhile_nil,List.filterMap_cons_none ha,List.filterMap_nil]
      · rfl
    rw [hone,List.append_nil]
  · exact untilClose_of_closed h

end Actions

section Trace
variable {stripe : Str → Fin numStripes} {s s' : Sys} {acts : List Action} {a : Action} {log : List Event} {i : Nat}
  {sub sub' : Sub}

/-- The window that a subscription notes is the one of the actions. -/
def SubTraced (acts : List Action) (log : List Event) (i : Nat) (sub : Sub) : Prop :=
  ∃ args after, Opened acts i args after ∧ sub.key = args.key ∧ (sub.till = none ↔ ∀ a ∈ after, a.closes i = false) ∧
    sub.own log = untilClose args.key i after

structure Traced (acts : List Action) (s : Sys) : Prop where
  count : s.subs.length = acts.countP Action.subscribes
  subs : ∀ (i : Nat) (sub : Sub), s.subs[i]? = some sub → SubTraced acts s.log i sub

private theorem SubTraced.keep (h : SubTraced acts log i sub) (hsame : Same sub sub')
    (hn : ∀ key, a.notifies key = none) (hc : a.closes i = false) : SubTraced (acts ++ [a]) log i sub' := by
  obtain ⟨args,after,hopen,hkey,htill,hown⟩ := h
  refine ⟨args,after ++ [a],hopen.concat a,hsame.key.trans hkey,?_,?_⟩
  · rw [hsame.till,htill]
    exact ⟨fun h => open_concat h hc,fun h b hb => h b (List.mem_append_left _ hb)⟩
  · rw [hsame.own,untilClose_of_quiet (hn _)]
    exact hown

private theorem SubTraced.close (h : SubTraced acts log i sub) :
    SubTraced (acts ++ [.close i]) log i { sub with till := some (sub.till.getD log.length) } := by
  obtain ⟨args,after,hopen,hkey,htill,hown⟩ := h
  refine ⟨args,after ++ [.close i],hopen.concat _,hkey,?_,?_⟩
  · refine iff_of_false (fun hx => (by cases hx)) (fun hall => ?_)
    have := hall (.close i) (List.mem_append_right _ (List.mem_singleton_self _))
    rw [Action.closes,beq_self_eq_true] at this
    cases this
  · rw [untilClose_of_quiet rfl]
    exact hown

private theorem SubTraced.notify (h : SubTraced acts log i sub) (hs : sub.since ≤ log.length)
    (ht : ∀ n ∈ sub.till, n ≤ log.length) (e : Event) : SubTraced (acts ++ [.notify e]) (log ++ [e]) i sub := by
  obtain ⟨args,after,hopen,hkey,htill,hown⟩ := h
  refine ⟨args,after ++ [.notify e],hopen.concat _,hkey,?_,?_⟩
  · rw [htill]
    exact ⟨fun h => open_concat h rfl,fun h b hb => h b (List.mem_append_left _ hb)⟩
  · by_cases hc : sub.till = none
    · have hopen' := htill.mp hc
      rw [untilClose_of_open (open_concat hopen' rfl),List.filterMap_append,← untilClose_of_open hopen',← hown]
      by_cases hk : e.key = sub.key
      · have hnotifies : Action.notifies args.key (.notify e) = some e := if_pos (hk.trans hkey)
        rw [own_append_of_open hs hc hk,List.filterMap_cons_some hnotifies]
        rfl
      · rw [own_append_of_not hs ht (fun hx => hk hx.1.symm),
          List.filterMap_cons_none (by rw [Action.notifies,if_neg (fun hx => hk (hx.trans hkey.symm))])]
        exact (List.append_nil _).symm
    · rw [own_append_of_not hs ht (fun hx => hc hx.2),untilClose_of_closed (mt htill.mpr hc)]
      exact hown

private theorem Traced.keep (h : Traced acts s) (hl : s'.log = s.log) (hlen : s'.subs.length = s.subs.length)
    (hsubs : ∀ (i : Nat) sub', s'.subs[i]? = some sub' → ∃ sub, s.subs[i]? = some sub ∧ Same sub sub')
    (hn : ∀ key, a.notifies key = none) (hs : a.subscribes = false) (hc : ∀ i, a.closes i = false) :
    Traced (acts ++ [a]) s' where
  count := by
    rw [hlen,h.count,List.countP_append,List.countP_singleton,hs]
    rfl
  subs := by
    intro i sub' hi
    obtain ⟨sub,hi,hsame⟩ := hsubs i sub' hi
    rw [hl]
    exact (h.subs i sub hi).keep hsame hn (hc i)

private theorem Traced.put {busy : Option Notifying} (h : Traced acts s) (hs : s.subs[i]? = some sub)
    (hsame : Same sub sub') (hn : ∀ key, a.notifies key = none) (hsub : a.subscribes = false)
    (hc : ∀ i, a.closes i = false) : Traced (acts ++ [a]) (s.put i sub' busy) := by
  refine h.keep rfl List.length_set (fun j x hx => ?_) hn hsub hc
  rcases eq_or_ne j i with rfl | hj
  · have hlt := (List.getElem?_eq_some_iff.mp hs).1
    cases (List.getElem?_set_self hlt).symm.trans hx
    exact ⟨sub,hs,hsame⟩
  · exact ⟨x,(List.getElem?_set_ne (Ne.symm hj)).symm.trans hx,⟨rfl,rfl,rfl⟩⟩

private theorem Traced.subscribe (h : Traced acts s) (args : SubArgs) :
    Traced (acts ++ [.subscribe args]) (s.subscribe stripe args) where
  count := by
    rw [Sys.subscribe,List.length_append,h.count,List.countP_append]
    rfl
  subs := by
    intro i sub hi
    rcases lt_or_ge i s.subs.length with hlt | hge
    · have hold := (List.getElem?_append_left hlt).symm.trans hi
      exact (h.subs i sub hold).keep ⟨rfl,rfl,rfl⟩ (fun _ => rfl) rfl
    · have hnew := (List.getElem?_append_right hge).symm.trans hi
      have hzero : i - s.subs.length = 0 := by
        have := (List.getElem?_eq_some_iff.mp hnew).1
        rw [List.length_singleton] at this
        omega
      obtain rfl : i = s.subs.length := by omega
      rw [hzero] at hnew
      cases hnew
      exact ⟨args,[],⟨acts,rfl,h.count.symm⟩,rfl,⟨fun _ _ ha => (by cases ha),fun _ => rfl⟩,own_new le_rfl⟩

private theorem Traced.close (h : Traced acts s) (hs : s.subs[i]? = some sub) :
    Traced (acts ++ [.close i]) (s.close stripe i sub) where
  count := by
    rw [Sys.close,List.length_set,h.count,List.countP_append]
    rfl
  subs := by
    intro j x hx
    rcases eq_or_ne j i with rfl | hj
    · have hlt := (List.getElem?_eq_some_iff.mp hs).1
      cases (List.getElem?_set_self hlt).symm.trans hx
      exact (h.subs j sub hs).close
    · have hold := (List.getElem?_set_ne (Ne.symm hj)).symm.trans hx
      exact (h.subs j x hold).keep ⟨rfl,rfl,rfl⟩ (fun _ => rfl) (beq_false_of_ne (Ne.symm hj))

private theorem Traced.notify (h : Traced acts s) (hg : Good stripe s) (e : Event) :
    Traced (acts ++ [.notify e]) (s.notify stripe e) where
  count := by
    rw [Sys.notify,h.count,List.countP_append]
    rfl
  subs := by
    intro i sub hi
    have hsub := hg.subs i sub hi
    exact (h.subs i sub hi).notify hsub.since hsub.till e

private theorem next_traced (hg : Good stripe s) (h : Traced acts s) (hn : s.next stripe a = some s') :
    Traced (acts ++ [a]) s' := by
  cases a with
  | subscribe args =>
    rw [Sys.next] at hn
    split at hn
    · cases hn
    · split_ifs at hn
      cases hn
      exact h.subscribe args
  | close i =>
    obtain ⟨sub,hs,hn⟩ := Option.bind_eq_some_iff.mp hn
    split_ifs at hn
    cases hn
    exact h.close hs
  | notify e =>
    rw [Sys.next] at hn
    split_ifs at hn
    cases hn
    exact h.notify hg e
  | store i =>
    obtain ⟨n,hb,hn⟩ := Option.bind_eq_some_iff.mp hn
    obtain ⟨sub,hs,hn⟩ := Option.bind_eq_some_iff.mp hn
    split_ifs at hn
    cases hn
    exact h.put hs ⟨rfl,rfl,rfl⟩ (fun _ => rfl) rfl (fun _ => rfl)
  | wake =>
    obtain ⟨n,hb,hn⟩ := Option.bind_eq_some_iff.mp hn
    obtain ⟨i,hi,hn⟩ := Option.bind_eq_some_iff.mp hn
    obtain ⟨sub,hs,hn⟩ := Option.bind_eq_some_iff.mp hn
    cases hn
    exact h.put hs ⟨rfl,rfl,rfl⟩ (fun _ => rfl) rfl (fun _ => rfl)
  | unlock =>
    obtain ⟨n,hb,hn⟩ := Option.bind_eq_some_iff.mp hn
    split_ifs at hn
    cases hn
    exact h.keep rfl rfl (fun i sub hi => ⟨sub,hi,rfl,rfl,rfl⟩) (fun _ => rfl) rfl (fun _ => rfl)
  | next i =>
    obtain ⟨sub,hs,hn⟩ := Option.bind_eq_some_iff.mp hn
    split_ifs at hn
    cases hn
    exact h.put hs ⟨rfl,rfl,rfl⟩ (fun _ => rfl) rfl (fun _ => rfl)
  | take i =>
    obtain ⟨sub,hs,hn⟩ := Option.bind_eq_some_iff.mp hn
    split_ifs at hn
    obtain ⟨box,ht,hn⟩ := Option.map_eq_some_iff.mp hn
    cases hn
    exact h.put hs ⟨rfl,rfl,rfl⟩ (fun _ => rfl) rfl (fun _ => rfl)
  | read i =>
    obtain ⟨sub,hs,hn⟩ := Option.bind_eq_some_iff.mp hn
    split_ifs at hn
    cases hn
    exact h.put hs ⟨rfl,rfl,rfl⟩ (fun _ => rfl) rfl (fun _ => rfl)
  | done i =>
    obtain ⟨sub,hs,hn⟩ := Option.bind_eq_some_iff.mp hn
    split_ifs at hn
    cases hn
    exact h.put hs ⟨rfl,rfl,rfl⟩ (fun _ => rfl) rfl (fun _ => rfl)

end Trace

section Runs
variable {stripe : Str → Fin numStripes} {s : Sys} {acts : List Action}

/-- A run of the hub, step by step. -/
abbrev run (stripe : Str → Fin numStripes) (acts : List Action) : Option Sys :=
  exec (Sys.next stripe) (fun _ _ => True) {} acts

private theorem run_traced (h : run stripe acts = some s) : Good stripe s ∧ Traced acts s :=
  exec_rule (I := fun acts s => Good stripe s ∧ Traced acts s) h
    ⟨good_init,rfl,fun _ _ hs => (by cases hs)⟩
    (fun _ _ _ _ hi _ hn => ⟨next_good hi.1 hn,next_traced hi.1 hi.2 hn⟩)

private theorem own_signalled (h : Good stripe s) {i : Nat} {sub : Sub} (hs : s.subs[i]? = some sub) :
    sub.own (s.signalled i) = if i ∈ s.due then (sub.own s.log).dropLast else sub.own s.log := by
  -- while its signal is due, the running Notify is the last of the subscription's own
  split_ifs with hi
  · rw [signalled_of_due hi]
    cases hb : s.busy with
    | none =>
      rw [Sys.due,hb] at hi
      cases hi
    | some n =>
      obtain ⟨x,hx,-,ho⟩ := (h.busy n hb).due i ((mem_due hb).mp hi)
      obtain rfl : sub = x := Option.some.inj (hs.symm.trans hx)
      rw [ho,List.dropLast_concat]
  · rw [signalled_of_not hi]

/-- A subscription coalesces. What its Next returns are notifications for its key from
after its Subscribe and before its first Close, in order, some skipped and some
repeated. Outside of Next, with no wake pending and no signal half done, the last one
returned is the last of them, but for one whose signal is still to come. -/
theorem sub_coalesces (h : run stripe acts = some s) {i : Nat} {sub : Sub} (hs : s.subs[i]? = some sub) :
    ∃ args after, Opened acts i args after ∧
      Samples (untilClose args.key i after) sub.got ∧
      (sub.box.half = false → sub.box.wake = false → sub.phase = .outside → sub.got.getLast? =
        (if i ∈ s.due then (untilClose args.key i after).dropLast else untilClose args.key i after).getLast?) := by
  obtain ⟨hg,ht⟩ := run_traced h
  obtain ⟨args,after,hopen,-,-,hown⟩ := ht.subs i sub hs
  refine ⟨args,after,hopen,hown ▸ samples_own hg hs,?_⟩
  intro hh hw hp
  rw [← hown,← own_signalled hg hs]
  refine (hg.subs i sub hs).coalesces.latest hw hh ?_
  rw [hp]
  exact Phase.noConfusion

private def oneStripe : Str → Fin numStripes := fun _ => ⟨0,by decide⟩

private def change (n : Nat) : Event := ⟨str "k",str "a",n,none,n⟩

/-- The second event overtakes the first between wake and take. Its own wake brings it
once more, after a Close and a third event that the subscription does not see. -/
private def overtaking : List Action :=
  [.subscribe { key := str "k" },.notify (change 1),.store 0,.wake,.unlock,.next 0,.notify (change 2),.store 0,
    .take 0,.read 0,.wake,.unlock,.close 0,.notify (change 3),.unlock,.next 0,.take 0,.read 0]

/-- The second event overtakes the first in the slot, and the third comes after the close. -/
theorem overtaken_event_skipped : ∃ s sub after, run oneStripe overtaking = some s ∧ s.subs[0]? = some sub ∧
    Opened overtaking 0 { key := str "k" } after ∧ untilClose (str "k") 0 after = [change 1,change 2] ∧
    sub.got = [change 2,change 2] ∧ Samples (untilClose (str "k") 0 after) sub.got ∧
    sub.got.getLast? = (untilClose (str "k") 0 after).getLast? := by
  have he : ((run oneStripe overtaking).bind (fun s => s.subs[0]?.map (fun sub => (s.due,sub)))).map
      (fun x => (x.2.got,x.2.box.half,x.2.box.wake,x.2.phase,x.1)) =
      some ([change 2,change 2],false,false,.outside,[]) := by
    decide +kernel
  obtain ⟨⟨due,sub⟩,hsub,hf⟩ := Option.map_eq_some_iff.mp he
  obtain ⟨s,hr,hs⟩ := Option.bind_eq_some_iff.mp hsub
  obtain ⟨sub',hs,hx⟩ := Option.map_eq_some_iff.mp hs
  cases hx
  obtain ⟨hgot,hh,hw,hp,hd⟩ : sub.got = [change 2,change 2] ∧ sub.box.half = false ∧ sub.box.wake = false ∧
      sub.phase = .outside ∧ s.due = [] := by
    simpa using hf
  obtain ⟨args,after,hopen,hsamples,hlast⟩ := sub_coalesces hr hs
  obtain ⟨rfl,rfl⟩ := hopen.unique ⟨[],rfl,rfl⟩
  refine ⟨s,sub,_,hr,hs,hopen,by decide +kernel,hgot,hsamples,?_⟩
  have := hlast hh hw hp
  rwa [hd,if_neg List.not_mem_nil] at this

end Runs
end Zuul.Watch
