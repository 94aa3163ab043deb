import Zuul.Lib.Ticks
import Zuul.Sessions.Streams

/-! The TTL a client asks for against the bounds of the server. The request is in
milliseconds and is turned into nanoseconds, with wraparound, before it is compared. -/
namespace Zuul.Sessions
open Lib Fsm Ticks
variable {cfg : Config} {reqMS : Int64}

/-- Bounds for requests: positive, in order and of whole milliseconds. -/
structure Limits (cfg : Config) : Prop where
  pos : 0 < cfg.minTTL
  le : cfg.minTTL ≤ cfg.maxTTL
  whole_min : cfg.minTTL % 1000000 = 0
  whole_max : cfg.maxTTL % 1000000 = 0

/-- The specification of the clamp, over the integers. -/
def Config.clampMS (cfg : Config) (reqMS : Int) : Int :=
  min (max reqMS (cfg.minTTL.toInt / 1000000)) (cfg.maxTTL.toInt / 1000000)

/-- The request is small enough to be counted in nanoseconds, or the bounds leave no
choice, or what is left of it after the wraparound is above the bounds all the same. -/
def Config.Countable (cfg : Config) (reqMS : Int) : Prop :=
  reqMS ≤ 9223372036854 ∨ cfg.minTTL = cfg.maxTTL ∨
    (cfg.maxTTL.toInt ≤ reqMS * 1000000 % 18446744073709551616 ∧
      reqMS * 1000000 % 18446744073709551616 < 9223372036854775808)

instance (cfg : Config) (reqMS : Int) : Decidable (cfg.Countable reqMS) := inferInstanceAs (Decidable (_ ∨ _))

section Arithmetic

private theorem Limits.ints (h : Limits cfg) : 0 < cfg.minTTL.toInt ∧ cfg.minTTL.toInt ≤ cfg.maxTTL.toInt ∧
    cfg.minTTL.toInt % 1000000 = 0 ∧ cfg.maxTTL.toInt % 1000000 = 0 := by
  have hpos : 0 < cfg.minTTL.toInt := Int64.lt_iff_toInt_lt.mp h.pos
  have hle : cfg.minTTL.toInt ≤ cfg.maxTTL.toInt := Int64.le_iff_toInt_le.mp h.le
  have hmin := toInt_rem (n := 1000000) hpos.le
  have hmax := toInt_rem (n := 1000000) (hpos.le.trans hle)
  rw [h.whole_min] at hmin
  rw [h.whole_max] at hmax
  exact ⟨hpos,hle,hmin.symm,hmax.symm⟩

private theorem toInt_clamp (h : Limits cfg) (hr : 0 < reqMS) :
    (cfg.clampTTL reqMS).toInt =
      (if (reqMS * 1000000).toInt < cfg.minTTL.toInt then cfg.minTTL.toInt
        else if cfg.maxTTL.toInt < (reqMS * 1000000).toInt then cfg.maxTTL.toInt
        else (reqMS * 1000000).toInt) / 1000000 := by
  -- the source compares the wrapped product
  obtain ⟨hpos,hle,_,_⟩ := h.ints
  have quot : ∀ {d : Int64}, 0 ≤ d.toInt → (d / 1000000).toInt = d.toInt / 1000000 :=
    fun hd => toInt_quot hd (by decide)
  simp only [Config.clampTTL,Int64.not_le.mpr hr,if_false,Int64.lt_iff_toInt_lt]
  split
  · exact quot hpos.le
  · split
    · exact quot (hpos.le.trans hle)
    · exact quot (by omega)

private theorem toInt_nanos (reqMS : Int64) :
    (reqMS * 1000000).toInt = (reqMS.toInt * 1000000).bmod 18446744073709551616 := Int64.toInt_mul ..

private theorem clamp_range (h : Limits cfg) (hr : 0 < reqMS) :
    0 < (cfg.clampTTL reqMS).toInt ∧ (cfg.clampTTL reqMS).toInt * 1000000 ≤ cfg.maxTTL.toInt := by
  obtain ⟨hpos,hle,wmin,wmax⟩ := h.ints
  rw [toInt_clamp h hr]
  split
  · omega
  · split <;> omega

private theorem le_wrapped_iff {bound y : Int} (hb : 0 < bound) : bound ≤ y.bmod 18446744073709551616 ↔
    bound ≤ y % 18446744073709551616 ∧ y % 18446744073709551616 < 9223372036854775808 := by
  rw [Int.bmod_def]
  split <;> omega

private theorem clamp_max_iff (h : Limits cfg) (w : Int) :
    (if w < cfg.minTTL.toInt then cfg.minTTL.toInt else if cfg.maxTTL.toInt < w then cfg.maxTTL.toInt else w) / 1000000 =
      cfg.maxTTL.toInt / 1000000 ↔ cfg.minTTL = cfg.maxTTL ∨ cfg.maxTTL.toInt ≤ w := by
  obtain ⟨hpos,hle,wmin,wmax⟩ := h.ints
  rw [← Int64.toInt_inj]
  split_ifs <;> omega

private theorem clamp_exact_iff (h : Limits cfg) (hr : 0 < reqMS) :
    (cfg.clampTTL reqMS).toInt = cfg.clampMS reqMS.toInt ↔ cfg.Countable reqMS.toInt := by
  obtain ⟨hpos,hle,wmin,wmax⟩ := h.ints
  have hr0 : 0 < reqMS.toInt := Int64.lt_iff_toInt_lt.mp hr
  have hmax := cfg.maxTTL.toInt_lt
  rw [toInt_clamp h hr,toInt_nanos,Config.clampMS,Config.Countable]
  by_cases hs : reqMS.toInt ≤ 9223372036854
  · -- nothing wraps
    have hw : (reqMS.toInt * 1000000).bmod 18446744073709551616 = reqMS.toInt * 1000000 :=
      Int.bmod_eq_of_le (by omega) (by omega)
    rw [hw]
    refine iff_of_true ?_ (.inl hs)
    split_ifs <;> omega
  · -- the request is above every bound
    have htop : min (max reqMS.toInt (cfg.minTTL.toInt / 1000000)) (cfg.maxTTL.toInt / 1000000) =
        cfg.maxTTL.toInt / 1000000 := by omega
    rw [htop,clamp_max_iff h,le_wrapped_iff (hpos.trans_le hle),or_iff_right hs]

private theorem deadline_exact (h : Limits cfg) (hr : 0 < reqMS) {now : Int64}
    (hn : now.toInt ≤ 9223372036854775807 - cfg.maxTTL.toInt) :
    (leaseDeadline now (cfg.clampTTL reqMS)).toInt = now.toInt + (cfg.clampTTL reqMS).toInt * 1000000 := by
  obtain ⟨hpos,hle⟩ := clamp_range h hr
  have hmax := cfg.maxTTL.toInt_lt
  have hnow := now.le_toInt
  have hms : (cfg.clampTTL reqMS * 1000000).toInt = (cfg.clampTTL reqMS).toInt * 1000000 := by
    rw [toInt_nanos]
    exact Int.bmod_eq_of_le (by omega) (by omega)
  rw [leaseDeadline,Int64.toInt_add,hms]
  exact Int.bmod_eq_of_le (by omega) (by omega)

private theorem clampMS_mono (cfg : Config) {a b : Int} (h : a ≤ b) : cfg.clampMS a ≤ cfg.clampMS b := by
  rw [Config.clampMS,Config.clampMS]
  omega

end Arithmetic

/-- The granted TTL is the request within the bounds exactly if the request can be
counted in nanoseconds; longer requests that can be are granted no less. The deadline
of the lease does not wrap in any case, as long as the clock leaves room for the maximum. -/
theorem clampTTL_exact_iff (h : Limits cfg) (hr : 0 < reqMS) :
    ((cfg.clampTTL reqMS).toInt = cfg.clampMS reqMS.toInt ↔ cfg.Countable reqMS.toInt) ∧
    (cfg.Countable reqMS.toInt → ∀ longer, reqMS ≤ longer → cfg.Countable longer.toInt →
      cfg.clampTTL reqMS ≤ cfg.clampTTL longer) ∧
    ∀ now : Int64, now.toInt ≤ 9223372036854775807 - cfg.maxTTL.toInt →
      (leaseDeadline now (cfg.clampTTL reqMS)).toInt = now.toInt + (cfg.clampTTL reqMS).toInt * 1000000 := by
  refine ⟨clamp_exact_iff h hr,?_,fun now hn => deadline_exact h hr hn⟩
  intro hc longer hl hcl
  have hlr : 0 < longer := Int64.lt_of_lt_of_le hr hl
  rw [Int64.le_iff_toInt_le,(clamp_exact_iff h hr).mpr hc,(clamp_exact_iff h hlr).mpr hcl]
  exact clampMS_mono cfg (Int64.le_iff_toInt_le.mp hl)

/-- The longest request that still counts gets the maximum. -/
theorem clampTTL_exact_longest :
    let cfg : Config := { shards := [] }
    cfg.Countable 9223372036854 ∧ (cfg.clampTTL 9223372036854).toInt = 300000 := by
  intro cfg
  have hl : Limits cfg := ⟨by decide,by decide,by decide,by decide⟩
  have hc : cfg.Countable 9223372036854 := by decide
  have he := (@clampTTL_exact_iff cfg 9223372036854 hl (by decide)).1.mpr hc
  exact ⟨hc,he.trans (by decide)⟩

/-- One millisecond more gets the minimum. -/
theorem longer_request_shorter_lease :
    let cfg : Config := { shards := [] }
    (cfg.clampTTL 9223372036854).toInt = 300000 ∧ (cfg.clampTTL 9223372036855).toInt = 1000 ∧
    cfg.clampMS 9223372036855 = 300000 := by
  decide

end Zuul.Sessions
