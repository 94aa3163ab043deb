import Zuul.Dragonboat.Simulation

/-! The reads that wait at a leader, first in, first out. -/
namespace Zuul.Dragonboat
open Lib

namespace ReadIndex
variable {r : ReadIndex} {k sender : Nat} {ctx : SystemCtx}

/-- No request waits at the start. -/
theorem ok_empty (k : Nat) : ({} : ReadIndex).Ok k where
  nodup := .nil
  mem _ := by simp [AList.mem_keys]
  status _ _ hs := by cases hs
  order := .nil

/-- The commit index may go up. -/
theorem Ok.mono {k' : Nat} (h : r.Ok k) (hk : k ≤ k') : r.Ok k' :=
  { h with status := fun ctx s hs => ⟨(h.status ctx s hs).1,Nat.le_trans (h.status ctx s hs).2 hk⟩ }

private theorem Ok.lookup (h : r.Ok k) (ctx : SystemCtx) (hc : ctx ∈ r.queue) : ∃ s, r.pending.lookup ctx = some s :=
  (r.pending.mem_iff_lookup ctx).mp ((h.mem ctx).mpr hc)

private theorem Ok.added (h : r.Ok k) (hc : ctx ∉ r.pending) :
    (⟨r.pending.insert ctx { index := k, sender, ctx },r.queue ++ [ctx]⟩ : ReadIndex).Ok k where
  nodup := by
    rw [List.nodup_append]
    refine ⟨h.nodup,List.nodup_singleton _,fun c hcq d hd => ?_⟩
    rw [List.mem_singleton.mp hd]
    rintro rfl
    exact hc ((h.mem c).mpr hcq)
  mem c := by
    rw [AList.mem_insert,h.mem,List.mem_append,List.mem_singleton,or_comm]
  status c s hs := by
    rw [KeyedMap.lookup_insert_eq] at hs
    split_ifs at hs with he
    · cases hs
      exact ⟨he.symm,Nat.le_refl _⟩
    · exact h.status c s hs
  order := by
    have hne : ∀ c ∈ r.queue, c ≠ ctx := fun c hcq he => hc ((h.mem ctx).mpr (he ▸ hcq))
    rw [List.pairwise_append]
    refine ⟨h.order.imp_of_mem ?_,List.pairwise_singleton _ _,fun c hcq d hd s t hs ht => ?_⟩
    · intro c d hcq hdq hord s t hs ht
      rw [KeyedMap.lookup_insert_eq,if_neg (hne c hcq)] at hs
      rw [KeyedMap.lookup_insert_eq,if_neg (hne d hdq)] at ht
      exact hord s t hs ht
    · rw [List.mem_singleton.mp hd,KeyedMap.lookup_insert_eq,if_pos rfl] at ht
      rw [KeyedMap.lookup_insert_eq,if_neg (hne c hcq)] at hs
      cases ht
      exact (h.status c s hs).2

/-- A request is never behind the ones that wait. -/
theorem Ok.addRequest (h : r.Ok k) (ctx : SystemCtx) (sender : Nat) :
    ∃ r', r.addRequest k ctx sender = some r' ∧ r'.Ok k := by
  rw [ReadIndex.addRequest]
  split_ifs with hc
  · exact ⟨r,rfl,h⟩
  · split
    · exact ⟨_,rfl,h.added hc⟩
    · rename_i peep hpeep
      obtain ⟨s,hs⟩ := h.lookup peep (List.mem_of_getLast? hpeep)
      have hle := (h.status peep s hs).2
      rw [hs,Option.bind_some,if_neg (Nat.not_lt.mpr hle)]
      exact ⟨_,rfl,h.added hc⟩

private theorem lookup_eraseAll (cs : List ReadStatus) (pending : KeyedMap SystemCtx ReadStatus) (c : SystemCtx) :
    (cs.foldl (fun m v => m.erase v.ctx) pending).lookup c =
      if c ∈ cs.map ReadStatus.ctx then none else pending.lookup c := by
  induction cs generalizing pending with
  | nil => rfl
  | cons s cs ih =>
    rw [List.foldl_cons,ih,KeyedMap.lookup_erase_eq,List.map_cons]
    by_cases hc : c = s.ctx
    · simp [hc]
    · simp [hc]

/-- The statuses cs of the first requests are found, those of rest are still to come. -/
theorem Ok.release (h : r.Ok k) (ctx : SystemCtx) (rest : List SystemCtx) (cs : List ReadStatus)
    (hq : r.queue = cs.map ReadStatus.ctx ++ rest) (hcs : ∀ s ∈ cs, r.pending.lookup s.ctx = some s) :
    ∃ r' ris, r.release ctx cs rest = some (r',ris) ∧ r'.Ok k := by
  induction rest generalizing cs with
  | nil => exact ⟨r,[],rfl,h⟩
  | cons c rest ih =>
    obtain ⟨s,hs⟩ := h.lookup c (by rw [hq]; simp)
    have hsc := (h.status c s hs).1
    have hq' : r.queue = (cs ++ [s]).map ReadStatus.ctx ++ rest := by
      rw [hq,List.map_append,List.map_singleton,hsc,List.append_assoc]
      rfl
    have hcs' : ∀ v ∈ cs ++ [s], r.pending.lookup v.ctx = some v := by
      intro v hv
      rcases List.mem_append.mp hv with hv | hv
      · exact hcs v hv
      · rw [List.mem_singleton.mp hv,hsc]
        exact hs
    rw [ReadIndex.release,hs]
    dsimp only
    by_cases hc : c = ctx
    · rw [if_pos hc]
      have hnodup : ((cs ++ [s]).map ReadStatus.ctx ++ rest).Nodup := hq' ▸ h.nodup
      have hdisj := (List.nodup_append.mp hnodup).2.2
      have kept : ∀ {d t}, ((cs ++ [s]).foldl (fun m v => m.erase v.ctx) r.pending).lookup d = some t →
          r.pending.lookup d = some t := by
        intro d t ht
        rw [lookup_eraseAll] at ht
        split_ifs at ht
        exact ht
      have hok : (⟨(cs ++ [s]).foldl (fun m v => m.erase v.ctx) r.pending,rest⟩ : ReadIndex).Ok k := by
        refine ⟨(List.nodup_append.mp hnodup).2.1,fun d => ?_,fun d t ht => h.status d t (kept ht),?_⟩
        · rw [KeyedMap.mem_iff_lookup,lookup_eraseAll]
          split_ifs with hd
          · exact ⟨fun ⟨_,hx⟩ => (by cases hx),fun hx => absurd rfl (hdisj d hd d hx)⟩
          · rw [← KeyedMap.mem_iff_lookup,h.mem,hq',List.mem_append]
            exact or_iff_right hd
        · have hord := hq' ▸ h.order
          exact (List.pairwise_append.mp hord).2.1.imp (fun hcd a b ha hb => hcd a b (kept ha) (kept hb))
      have hlen : rest.length = ((cs ++ [s]).foldl (fun m v => m.erase v.ctx) r.pending).keys.length :=
        ((List.perm_ext_iff_of_nodup (AList.keys_nodup _) hok.nodup).mpr hok.mem).length_eq.symm
      rw [if_neg]
      · exact ⟨_,_,rfl,hok⟩
      · rintro (hany | hne)
        · obtain ⟨v,hv,hlt⟩ := List.any_eq_true.mp hany
          have hlt := of_decide_eq_true hlt
          rcases List.mem_append.mp hv with hv | hv
          · have hord := hq ▸ h.order
            have := (List.pairwise_append.mp hord).2.2 v.ctx (List.mem_map_of_mem hv) c List.mem_cons_self v s (hcs v hv) hs
            omega
          · rw [List.mem_singleton.mp hv] at hlt
            exact Nat.lt_irrefl _ hlt
        · exact hne hlen
    · rw [if_neg hc]
      exact ih (cs ++ [s]) hq' hcs'

/-- A confirmation releases reads in order, and nothing panics. -/
theorem Ok.confirm (h : r.Ok k) (ctx : SystemCtx) (sender quorum : Nat) :
    ∃ r' ris, r.confirm ctx sender quorum = some (r',ris) ∧ r'.Ok k := by
  rw [ReadIndex.confirm]
  cases hp : r.pending.lookup ctx with
  | none => exact ⟨r,[],rfl,h⟩
  | some s =>
    have hok : (⟨r.pending.insert ctx { s with confirmed := s.confirmed.insert sender () },r.queue⟩ : ReadIndex).Ok k := by
      have hold : ∀ {c t}, (r.pending.insert ctx { s with confirmed := s.confirmed.insert sender () }).lookup c = some t →
          ∃ t', r.pending.lookup c = some t' ∧ t.ctx = t'.ctx ∧ t.index = t'.index := by
        intro c t ht
        rw [KeyedMap.lookup_insert_eq] at ht
        split_ifs at ht with hc
        · cases ht
          exact ⟨s,hc ▸ hp,rfl,rfl⟩
        · exact ⟨t,ht,rfl,rfl⟩
      refine ⟨h.nodup,fun c => ?_,fun c t ht => ?_,h.order.imp (fun hcd a b ha hb => ?_)⟩
      · rw [AList.mem_insert,← h.mem]
        exact ⟨fun hx => hx.elim (fun he => he ▸ (r.pending.mem_iff_lookup ctx).mpr ⟨s,hp⟩) (fun hx => hx),.inr⟩
      · obtain ⟨t',ht',hc,hi⟩ := hold ht
        rw [hc,hi]
        exact h.status c t' ht'
      · obtain ⟨a',ha',-,hai⟩ := hold ha
        obtain ⟨b',hb',-,hbi⟩ := hold hb
        rw [hai,hbi]
        exact hcd a' b' ha' hb'
    dsimp only
    split_ifs
    · exact ⟨_,[],rfl,hok⟩
    · exact hok.release ctx r.queue [] rfl (fun _ hx => by cases hx)

end ReadIndex
end Zuul.Dragonboat
