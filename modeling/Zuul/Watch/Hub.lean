import Zuul.Fsm.Message
import Zuul.Lib.KeyedMap
import Zuul.Lib.Mailbox

/-! The notification hub of a node. One notifier walks the subscriptions of a key
under the stripe's lock; subscribers come, wait, read and go in between. -/
namespace Zuul.Watch
open Lib
open Fsm (Str Event)

def numStripes : Nat := 16

structure SubArgs where
  key : Str
  identity : Str := []
  track : Bool := false

inductive SubArgsError where
  | keyRequired
  deriving DecidableEq, Repr

def SubArgs.validate (a : SubArgs) : Except SubArgsError Unit :=
  if a.key = [] then .error .keyRequired else .ok ()

/-- Where the subscriber is: not in Next, in its select, or between the wake and the read. -/
inductive Phase where
  | outside | waiting | woken
  deriving DecidableEq, Repr

/-- A subscription. Beside the fields of the source it notes what its Next has
returned and how many notifications came before its Subscribe and its Close. -/
structure Sub where
  key : Str
  identity : Str
  track : Bool
  box : Mailbox Event := { last := ⟨[],[],0,none,0⟩ }
  phase : Phase := .outside
  got : List Event := []
  since : Nat
  till : Option Nat := none

/-- The notifications for its key between its Subscribe and its Close. -/
def Sub.own (sub : Sub) (log : List Event) : List Event :=
  ((log.take (sub.till.getD log.length)).drop sub.since).filter (fun e => e.key = sub.key)

structure Observation where
  key : Str
  identity : Str
  deriving DecidableEq, Repr

/-- The stripes of the subscription map. A subscription is named by its number. -/
structure Hub where
  stripes : Fin numStripes → KeyedMap Str (KeyedMap Nat Unit) := fun _ => ∅

namespace Hub

def set (h : Hub) (st : Fin numStripes) (subs : KeyedMap Str (KeyedMap Nat Unit)) : Hub :=
  ⟨fun st' => if st' = st then subs else h.stripes st'⟩

/-- The subscriptions of a key in a stripe, none when the key is absent. -/
def inner (h : Hub) (st : Fin numStripes) (key : Str) : KeyedMap Nat Unit := ((h.stripes st).lookup key).getD ∅

def subscribe (h : Hub) (st : Fin numStripes) (key : Str) (i : Nat) : Hub :=
  h.set st ((h.stripes st).insert key ((h.inner st key).insert i ()))

/-- The inner map goes with its last subscription. -/
def close (h : Hub) (st : Fin numStripes) (key : Str) (i : Nat) : Hub :=
  match (h.stripes st).lookup key with
  | none => h
  | some m =>
    let m := m.erase i
    if m.entries.length = 0 then h.set st ((h.stripes st).erase key)
    else h.set st ((h.stripes st).insert key m)

end Hub

/-- A Notify on its way: the subscriptions still to be signalled, and the one
whose signal has stored the event but not yet sent the wake. -/
structure Notifying where
  event : Event
  due : List Nat
  current : Option Nat := none

/-- The hub, all subscriptions ever made, the Notify on its way and the
notifications so far, each counted from when its Notify got the lock. -/
structure Sys where
  hub : Hub := {}
  subs : List Sub := []
  busy : Option Notifying := none
  log : List Event := []

inductive Action where
  | subscribe (args : SubArgs)
  | close (i : Nat)
  | notify (e : Event)
  | store (i : Nat)
  | wake | unlock
  | next (i : Nat)
  | take (i : Nat)
  | read (i : Nat)
  | done (i : Nat)

namespace Sys
variable (stripe : Str → Fin numStripes)

/-- A Notify holds the lock of the key's stripe. -/
def Locked (s : Sys) (key : Str) : Prop := ∃ n ∈ s.busy, stripe n.event.key = stripe key

instance (s : Sys) (key : Str) : Decidable (s.Locked stripe key) :=
  inferInstanceAs (Decidable (∃ n ∈ s.busy, stripe n.event.key = stripe key))

def put (s : Sys) (i : Nat) (sub : Sub) (busy : Option Notifying) : Sys :=
  { s with subs := s.subs.set i sub, busy := busy }

/-- Hub.Subscribe of valid arguments. -/
def subscribe (s : Sys) (args : SubArgs) : Sys :=
  { s with
    hub := s.hub.subscribe (stripe args.key) args.key s.subs.length
    subs := s.subs ++ [{ key := args.key, identity := args.identity, track := args.track, since := s.log.length }] }

/-- Sub.Close. Only the first one has an effect. -/
def close (s : Sys) (i : Nat) (sub : Sub) : Sys :=
  { s with
    hub := s.hub.close (stripe sub.key) sub.key i
    subs := s.subs.set i { sub with till := some (sub.till.getD s.log.length) } }

/-- Hub.Notify with the lock of the stripe. -/
def notify (s : Sys) (e : Event) : Sys :=
  { s with busy := some { event := e, due := (s.hub.inner (stripe e.key) e.key).keys }, log := s.log ++ [e] }

/-- One step of the notifier, of a subscriber or of a caller; none when it is not
possible now. Notify may signal the subscriptions in any order, each one in two
halves; Next takes a wake and then reads. -/
def next (s : Sys) : Action → Option Sys
  | .subscribe args =>
    match args.validate with
    | .error _ => none
    | .ok _ => if s.Locked stripe args.key then none else some (s.subscribe stripe args)
  | .close i => s.subs[i]?.bind (fun sub => if s.Locked stripe sub.key then none else some (s.close stripe i sub))
  | .notify e => if s.busy.isSome then none else some (s.notify stripe e)
  | .store i =>
    s.busy.bind fun n => s.subs[i]?.bind fun sub =>
      if n.current = none ∧ n.due.contains i then
        some (s.put i { sub with box := sub.box.record n.event } (some { n with due := n.due.erase i, current := some i }))
      else none
  | .wake =>
    s.busy.bind fun n => n.current.bind fun i => s.subs[i]?.bind fun sub =>
      some (s.put i { sub with box := sub.box.post } (some { n with current := none }))
  | .unlock =>
    s.busy.bind fun n => if n.due = [] ∧ n.current = none then some { s with busy := none } else none
  | .next i =>
    s.subs[i]?.bind fun sub =>
      if sub.phase = .outside then some (s.put i { sub with phase := .waiting } s.busy) else none
  | .take i =>
    s.subs[i]?.bind fun sub =>
      if sub.phase = .waiting then
        sub.box.take.map fun box => s.put i { sub with box := box, phase := .woken } s.busy
      else none
  | .read i =>
    s.subs[i]?.bind fun sub =>
      if sub.phase = .woken then
        some (s.put i { sub with phase := .outside, got := sub.got ++ [sub.box.last] } s.busy)
      else none
  | .done i =>
    s.subs[i]?.bind fun sub =>
      if sub.phase = .waiting then some (s.put i { sub with phase := .outside } s.busy) else none

/-- The tracked subscriptions of one stripe, under its lock. -/
def collect (s : Sys) (key : Str) (st : Fin numStripes) : List Observation :=
  (s.hub.stripes st).entries.flatMap fun entry =>
    if key ≠ [] ∧ entry.1 ≠ key then []
    else ((entry.2.keys.filterMap (s.subs[·]?)).filter Sub.track).map fun sub => ⟨entry.1,sub.identity⟩

/-- Hub.Observers, of one key or of all. -/
def observers (s : Sys) (key : Str) : List Observation :=
  if key ≠ [] then s.collect key (stripe key) else (List.finRange numStripes).flatMap (s.collect key)

/-- The subscriptions that the running Notify has not signalled yet. -/
def due (s : Sys) : List Nat := (s.busy.map Notifying.due).getD []

/-- The notifications as far as they concern a subscription: without the running
one while its signal is due. -/
def signalled (s : Sys) (i : Nat) : List Event := if s.due.contains i then s.log.dropLast else s.log

end Sys

section Inner
variable (h : Hub) (st st' : Fin numStripes) (key key' : Str) (i : Nat)

private theorem inner_set {subs : KeyedMap Str (KeyedMap Nat Unit)} {m : KeyedMap Nat Unit}
    (hm : ∀ k, (subs.lookup k).getD ∅ = if k = key then m else h.inner st k) :
    (h.set st subs).inner st' key' = if st' = st ∧ key' = key then m else h.inner st' key' := by
  rw [Hub.inner,Hub.set]
  dsimp only
  by_cases hs : st' = st
  · subst hs
    rw [if_pos rfl,hm]
    simp only [true_and]
  · rw [if_neg hs,if_neg (fun hc => hs hc.1)]
    rfl

private theorem getD_insert (m : KeyedMap Nat Unit) (k : Str) :
    (((h.stripes st).insert key m).lookup k).getD ∅ = if k = key then m else h.inner st k := by
  rw [KeyedMap.lookup_insert_eq,apply_ite (Option.getD · ∅)]
  rfl

private theorem inner_subscribe :
    (h.subscribe st key i).inner st' key' =
      if st' = st ∧ key' = key then (h.inner st key).insert i () else h.inner st' key' :=
  inner_set h st st' key key' (getD_insert h st key _)

/-- Subscribing adds one subscription to one key. -/
theorem mem_inner_subscribe (j : Nat) :
    j ∈ (h.subscribe st key i).inner st' key' ↔ j ∈ h.inner st' key' ∨ (st' = st ∧ key' = key ∧ j = i) := by
  rw [inner_subscribe]
  split
  · rename_i hc
    rw [AList.mem_insert,hc.1,hc.2]
    simp only [true_and]
    exact or_comm
  · rename_i hc
    exact (or_iff_left fun hm => hc ⟨hm.1,hm.2.1⟩).symm

/-- A key that goes away with its last subscription reads as the empty map. -/
theorem inner_close :
    (h.close st key i).inner st' key' =
      if st' = st ∧ key' = key then (h.inner st key).erase i else h.inner st' key' := by
  rw [Hub.close]
  cases hl : (h.stripes st).lookup key with
  | none =>
    have hi : h.inner st key = ∅ := by rw [Hub.inner,hl]; rfl
    dsimp only
    split
    · rename_i hc
      rw [hc.1,hc.2,hi]
      rfl
    · rfl
  | some m =>
    have hi : h.inner st key = m := by rw [Hub.inner,hl]; rfl
    rw [hi]
    dsimp only
    split
    · rename_i he
      have hm : m.erase i = ∅ := AList.ext (List.length_eq_zero_iff.mp he)
      refine inner_set h st st' key key' fun k => ?_
      rw [KeyedMap.lookup_erase_eq,apply_ite (Option.getD · ∅),hm]
      rfl
    · exact inner_set h st st' key key' (getD_insert h st key _)

/-- Closing takes one subscription from one key. -/
theorem mem_inner_close (j : Nat) :
    j ∈ (h.close st key i).inner st' key' ↔ j ∈ h.inner st' key' ∧ ¬(st' = st ∧ key' = key ∧ j = i) := by
  rw [inner_close]
  split
  · rename_i hc
    rw [AList.mem_erase,hc.1,hc.2]
    simp only [true_and]
    exact and_comm
  · rename_i hc
    exact (and_iff_left fun hm => hc ⟨hm.1,hm.2.1⟩).symm

end Inner

section Own
variable {sub sub' : Sub} {log : List Event}

/-- Neither opened nor closed in between. -/
structure Same (sub sub' : Sub) : Prop where
  key : sub'.key = sub.key
  since : sub'.since = sub.since
  till : sub'.till = sub.till

/-- A subscription neither opened nor closed in between has the same events. -/
theorem Same.own (h : Same sub sub') : sub'.own log = sub.own log := by
  rw [Sub.own,Sub.own,h.key,h.since,h.till]

/-- An open subscription sees what is notified for its key. -/
theorem own_append_of_open (hs : sub.since ≤ log.length) (ht : sub.till = none) {e : Event} (hk : e.key = sub.key) :
    sub.own (log ++ [e]) = sub.own log ++ [e] := by
  rw [Sub.own,Sub.own,ht,Option.getD_none,Option.getD_none,List.take_length,List.take_length,
    List.drop_append_of_le_length hs,List.filter_append,List.filter_singleton,decide_eq_true hk]
  rfl

/-- A closed one, or one of another key, does not. -/
theorem own_append_of_not (hs : sub.since ≤ log.length) (ht : ∀ n ∈ sub.till, n ≤ log.length) {e : Event}
    (hn : ¬(sub.key = e.key ∧ sub.till = none)) : sub.own (log ++ [e]) = sub.own log := by
  cases hc : sub.till with
  | none =>
    have hk : ¬e.key = sub.key := fun hk => hn ⟨hk.symm,hc⟩
    rw [Sub.own,Sub.own,hc,Option.getD_none,Option.getD_none,List.take_length,List.take_length,
      List.drop_append_of_le_length hs,List.filter_append,List.filter_singleton,decide_eq_false hk]
    exact List.append_nil _
  | some n =>
    rw [Sub.own,Sub.own,hc,Option.getD_some,Option.getD_some,List.take_append_of_le_length (ht n hc)]

/-- No event yet is one of a subscription made after all of them. -/
theorem own_new (hs : log.length ≤ sub.since) : sub.own log = [] := by
  have hd : (log.take (sub.till.getD log.length)).drop sub.since = [] := by
    apply List.drop_eq_nil_of_le
    rw [List.length_take]
    omega
  rw [Sub.own,hd,List.filter_nil]

end Own

section Observers

private theorem mem_inner (h : Hub) (st : Fin numStripes) (key : Str) (i : Nat) :
    i ∈ h.inner st key ↔ ∃ m, (h.stripes st).lookup key = some m ∧ i ∈ m := by
  rw [Hub.inner]
  cases (h.stripes st).lookup key with
  | none => simp
  | some m => simp

/-- The observers found are the tracked subscriptions of the key, or of all keys. -/
theorem mem_collect (s : Sys) (key : Str) (st : Fin numStripes) (o : Observation) :
    o ∈ s.collect key st ↔ (key = [] ∨ o.key = key) ∧ ∃ (i : Nat) (sub : Sub), i ∈ s.hub.inner st o.key ∧
      s.subs[i]? = some sub ∧ sub.track = true ∧ sub.identity = o.identity := by
  simp only [Sys.collect,List.mem_flatMap,mem_inner]
  constructor
  · rintro ⟨⟨k,m⟩,he,ho⟩
    have hk := (KeyedMap.mem_entries_iff _ k m).mp he
    split at ho
    · cases ho
    · rename_i hf
      obtain ⟨sub,hsub,rfl⟩ := List.mem_map.mp ho
      obtain ⟨hsub,htrack⟩ := List.mem_filter.mp hsub
      obtain ⟨i,hi,hs⟩ := List.mem_filterMap.mp hsub
      refine ⟨?_,i,sub,⟨m,hk,hi⟩,hs,htrack,rfl⟩
      by_cases hnil : key = []
      · exact .inl hnil
      · exact .inr (not_not.mp fun hne => hf ⟨hnil,hne⟩)
  · rintro ⟨hkey,i,sub,⟨m,hk,hi⟩,hs,htrack,hid⟩
    refine ⟨⟨o.key,m⟩,(KeyedMap.mem_entries_iff _ _ m).mpr hk,?_⟩
    rw [if_neg (fun hf => hkey.elim hf.1 hf.2)]
    refine List.mem_map.mpr ⟨sub,List.mem_filter.mpr ⟨List.mem_filterMap.mpr ⟨i,hi,hs⟩,htrack⟩,?_⟩
    rw [hid]

end Observers
end Zuul.Watch
