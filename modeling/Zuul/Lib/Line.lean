import Mathlib.Data.List.Nodup

/-! A line whose head is served. Newcomers join at its end, the head may be done, and
anybody behind it may give up. Who stays is never overtaken. -/
namespace Zuul.Lib.Line
variable {α : Type} [BEq α]

/-- One change of a line, with the one who is served next if the head is done. -/
inductive Move : List α → List α → Option α → Prop where
  | stay (l : List α) : Move l l none
  | join (l : List α) (a : α) : Move l (l ++ [a]) none
  | leave (head : α) (queue : List α) (a : α) : Move (head :: queue) (head :: queue.erase a) none
  | done (head : α) (queue : List α) : Move (head :: queue) queue queue.head?

/-- Changes all along which c is in the line, with all who were served after its head. -/
inductive Waits (c : α) : List α → List α → List α → Prop where
  | here (l : List α) : Waits c l l []
  | move {l m n served : List α} {o : Option α} (hn : l.Nodup) (hm : Move l m o) (hc : c ∈ m) (hw : Waits c m n served) :
      Waits c l n (o.toList ++ served)

variable [LawfulBEq α] {c : α} {l m n front back served : List α} {o : Option α}

private theorem Move.closer (h : Move (front ++ c :: back) m o) (hn : (front ++ c :: back).Nodup) (hc : c ∈ m) :
    ∃ front' back', m = front' ++ c :: back' ∧ front'.Sublist front ∧ front'.length + o.toList.length ≤ front.length ∧
      (o.toList ++ (front' ++ [c]).tail).Sublist (front ++ [c]).tail := by
  -- those before it become fewer, in their order, and whoever of them is served next is one fewer
  generalize hl : front ++ c :: back = l at h hn
  cases h with
  | stay => exact ⟨front,back,hl.symm,.refl _,Nat.le_refl _,.refl _⟩
  | join _ a => exact ⟨front,back ++ [a],by rw [← hl,List.append_assoc]; rfl,.refl _,Nat.le_refl _,.refl _⟩
  | leave head queue a =>
    cases front with
    | nil =>
      cases hl
      exact ⟨[],back.erase a,rfl,.refl _,Nat.le_refl _,.refl _⟩
    | cons b front =>
      obtain ⟨rfl,rfl⟩ : b = head ∧ front ++ c :: back = queue := by simpa using hl
      have hcb : c ≠ b := by
        rintro rfl
        exact (List.nodup_cons.mp hn).1 (List.mem_append_right _ List.mem_cons_self)
      have hca : c ≠ a := by
        rintro rfl
        have hm := (List.mem_cons.mp hc).resolve_left hcb
        exact ((List.nodup_cons.mp hn).2.mem_erase_iff.mp hm).1 rfl
      by_cases ha : a ∈ front
      · refine ⟨b :: front.erase a,back,by rw [List.erase_append_left _ ha]; rfl,List.erase_sublist.cons_cons b,
          Nat.succ_le_succ List.erase_sublist.length_le,?_⟩
        exact List.erase_sublist.append_right [c]
      · refine ⟨b :: front,back.erase a,?_,.refl _,Nat.le_refl _,.refl _⟩
        rw [List.erase_append_right _ ha,List.erase_cons_tail (by simpa using hca)]
        rfl
  | done head queue =>
    cases front with
    | nil =>
      cases hl
      exact ((List.nodup_cons.mp hn).1 hc).elim
    | cons b front =>
      obtain ⟨rfl,rfl⟩ : b = head ∧ front ++ c :: back = m := by simpa using hl
      cases front with
      | nil => exact ⟨[],back,rfl,List.nil_sublist _,Nat.le_refl _,.refl _⟩
      | cons d front => exact ⟨d :: front,back,rfl,List.sublist_cons_self _ _,Nat.le_refl _,.refl _⟩

/-- Nobody comes before one who stays. Those served meanwhile are ones who stood before
it, in their order, and with each of them one fewer is left to wait for. -/
theorem Waits.turn (h : Waits c l n served) (hl : l = front ++ c :: back) :
    ∃ front' back', n = front' ++ c :: back' ∧ front'.Sublist front ∧
      front'.length + served.length ≤ front.length ∧ served.Sublist (front ++ [c]).tail := by
  induction h generalizing front back with
  | here => exact ⟨front,back,hl,.refl _,Nat.le_refl _,List.nil_sublist _⟩
  | @move _ _ _ o served hn hm hc hw ih =>
    subst hl
    obtain ⟨front₁,back₁,hm₁,hf₁,hle₁,hs₁⟩ := hm.closer hn hc
    obtain ⟨front₂,back₂,hn₂,hf₂,hle₂,hs₂⟩ := ih hm₁
    refine ⟨front₂,back₂,hn₂,hf₂.trans hf₁,?_,(hs₂.append_left _).trans hs₁⟩
    rw [List.length_append]
    omega

end Zuul.Lib.Line
