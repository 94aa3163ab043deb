import Zuul.Fsm.Message
import Zuul.Lib.KeyedMap

/-! Bearer tokens verified by an issuer, and the cache of those that passed. Times are
nanoseconds since the zero time. -/
namespace Zuul.Auth.Oidc
open Lib
open Fsm (Str str)

def maxTokenCache : Nat := 16384

/-- One minute. -/
def maxCacheTTL : Int := 60000000000

/-- The value of a claim; whether it is a string is all that matters. -/
inductive Claim where
  | string (s : Str)
  | other
  deriving DecidableEq, Repr

/-- A token with a good signature, issuer, audience and expiry. Its claims may still
not decode. -/
structure Token where
  expiry : Int
  claims : Option (KeyedMap Str Claim)

inductive VerifyError where
  | invalidToken
  | decodeClaims
  | noUsableClaim (claim : Str)
  deriving DecidableEq, Repr

/-- An identity and the time it stops being trusted from the cache. -/
structure CacheEntry where
  identity : Str
  exp : Int
  deriving DecidableEq, Repr

abbrev Cache := KeyedMap Str CacheEntry

/-- The issuer's verdict on a raw token may be another one at any other time. -/
structure Verifier where
  issuer : Int → Str → Option Token
  claim : Str := str "sub"

/-- The sooner of the expiry, unless it is the zero time, and one minute from now. -/
def cacheUntil (now exp : Int) : Int :=
  if exp = 0 ∨ exp > now + maxCacheTTL then now + maxCacheTTL else exp

namespace Verifier
variable (v : Verifier)

/-- The identity and the expiry the issuer vouches for. -/
def identify (now : Int) (raw : Str) : Except VerifyError (Str × Int) :=
  match v.issuer now raw with
  | none => .error .invalidToken
  | some token =>
    match token.claims with
    | none => .error .decodeClaims
    | some claims =>
      match claims.lookup v.claim with
      | some (.string identity) =>
        if identity = [] then .error (.noUsableClaim v.claim) else .ok (identity,token.expiry)
      | _ => .error (.noUsableClaim v.claim)

/-- The cache is looked at again, and a full one takes no new entry. -/
def verifyAndCache (cache : Cache) (now : Int) (raw : Str) : Cache × Except VerifyError CacheEntry :=
  match (cache.lookup raw).filter (now < ·.exp) with
  | some e => (cache,.ok e)
  | none =>
    match v.identify now raw with
    | .error err => (cache,.error err)
    | .ok (identity,expiry) =>
      let entry : CacheEntry := ⟨identity,cacheUntil now expiry⟩
      (if cache.entries.length < maxTokenCache then cache.insert raw entry else cache,.ok entry)

/-- An entry that is no longer trusted is dropped before the token is verified again. -/
def verify (cache : Cache) (now : Int) (raw : Str) : Cache × Except VerifyError Str :=
  let miss := fun cache =>
    let out := v.verifyAndCache cache now raw
    (out.1,out.2.map CacheEntry.identity)
  match cache.lookup raw with
  | some e => if now < e.exp then (cache,.ok e.identity) else miss (cache.erase raw)
  | none => miss cache

end Verifier

structure Call where
  time : Int
  raw : Str
  deriving DecidableEq, Repr

/-- Calls one after the other, with what each is answered. -/
def Verifier.run (v : Verifier) : Cache → List Call → Cache × List (Call × Except VerifyError Str)
  | cache, [] => (cache,[])
  | cache, call :: calls =>
    let out := v.verify cache call.time call.raw
    let rest := v.run out.1 calls
    (rest.1,(call,out.2) :: rest.2)

section Trust
variable {v : Verifier} {cache : Cache} {now t : Int} {raw id : Str} {e : CacheEntry}

/-- The entry stands for a verdict of the issuer on this token, not after now. -/
def Vouched (v : Verifier) (now : Int) (raw : Str) (e : CacheEntry) : Prop :=
  ∃ t₀ exp, t₀ ≤ now ∧ v.identify t₀ raw = .ok (e.identity,exp) ∧ e.exp = cacheUntil t₀ exp

/-- At t the issuer vouches for the identity of this token, or did so less than a minute
ago with an expiry that is still to come. -/
def Trusted (v : Verifier) (t : Int) (raw id : Str) : Prop :=
  ∃ t₀ exp, t₀ ≤ t ∧ v.identify t₀ raw = .ok (id,exp) ∧ (t₀ = t ∨ t < t₀ + maxCacheTTL ∧ (exp = 0 ∨ t < exp))

structure Sound (v : Verifier) (now : Int) (cache : Cache) : Prop where
  vouched : ∀ raw e, cache.lookup raw = some e → Vouched v now raw e
  size : cache.entries.length ≤ maxTokenCache

private theorem lt_cacheUntil_iff {exp : Int} :
    t < cacheUntil now exp ↔ t < now + maxCacheTTL ∧ (exp = 0 ∨ t < exp) := by
  rw [cacheUntil]
  split_ifs with h
  · exact ⟨fun hlt => ⟨hlt,by omega⟩,fun hlt => hlt.1⟩
  · exact ⟨fun hlt => ⟨by omega,.inr hlt⟩,fun hlt => by omega⟩

/-- An entry is used only within its window. -/
theorem Vouched.trusted (h : Vouched v t raw e) (hlt : t < e.exp) : Trusted v t raw e.identity := by
  obtain ⟨t₀,exp,hle,hid,hexp⟩ := h
  rw [hexp,lt_cacheUntil_iff] at hlt
  exact ⟨t₀,exp,hle,hid,.inr hlt⟩

private theorem Sound.later (h : Sound v now cache) (hle : now ≤ t) : Sound v t cache := by
  refine ⟨fun raw e hl => ?_,h.size⟩
  obtain ⟨t₀,exp,ht,hid,hexp⟩ := h.vouched raw e hl
  exact ⟨t₀,exp,ht.trans hle,hid,hexp⟩

private theorem Sound.erase (h : Sound v now cache) (raw : Str) : Sound v now (cache.erase raw) := by
  refine ⟨fun raw' e hl => ?_,(KeyedMap.length_erase_le cache raw).trans h.size⟩
  rw [KeyedMap.lookup_erase_eq] at hl
  split_ifs at hl
  exact h.vouched raw' e hl

private theorem Sound.insert (h : Sound v now cache) (he : Vouched v now raw e)
    (hsize : cache.entries.length < maxTokenCache) :
    Sound v now (cache.insert raw e) := by
  refine ⟨fun raw' e' hl => ?_,(KeyedMap.length_insert_le cache raw e).trans hsize⟩
  rw [KeyedMap.lookup_insert_eq] at hl
  split_ifs at hl with heq
  · cases hl
    exact heq ▸ he
  · exact h.vouched raw' e' hl

/-- A verification that succeeds leaves a sound cache and answers for this token. -/
theorem verifyAndCache_sound (h : Sound v t cache) (raw : Str) : Sound v t (v.verifyAndCache cache t raw).1 ∧
    ∀ e, (v.verifyAndCache cache t raw).2 = .ok e → Trusted v t raw e.identity := by
  rw [Verifier.verifyAndCache]
  cases hc : (cache.lookup raw).filter (t < ·.exp) with
  | some e =>
    obtain ⟨hl,hlt⟩ := Option.filter_eq_some_iff.mp hc
    refine ⟨h,fun e' he => ?_⟩
    cases he
    exact (h.vouched raw e hl).trusted (of_decide_eq_true hlt)
  | none =>
    cases hid : v.identify t raw with
    | error err => exact ⟨h,fun e he => by cases he⟩
    | ok r =>
      obtain ⟨id,expiry⟩ := r
      refine ⟨?_,fun e he => ?_⟩
      · dsimp only
        split_ifs with hsize
        · exact h.insert ⟨t,expiry,le_rfl,hid,rfl⟩ hsize
        · exact h
      · cases he
        exact ⟨t,expiry,le_rfl,hid,.inl rfl⟩

private theorem verify_sound (h : Sound v t cache) (raw : Str) : Sound v t (v.verify cache t raw).1 ∧
    ∀ id, (v.verify cache t raw).2 = .ok id → Trusted v t raw id := by
  have miss {cache : Cache} (h : Sound v t cache) : Sound v t (v.verifyAndCache cache t raw).1 ∧
      ∀ id, (v.verifyAndCache cache t raw).2.map CacheEntry.identity = .ok id → Trusted v t raw id := by
    obtain ⟨hs,ha⟩ := verifyAndCache_sound h raw
    refine ⟨hs,fun id hid => ?_⟩
    cases hr : (v.verifyAndCache cache t raw).2 with
    | error err =>
      rw [hr] at hid
      cases hid
    | ok e =>
      rw [hr] at hid
      cases hid
      exact ha e hr
  rw [Verifier.verify]
  cases hl : cache.lookup raw with
  | none => exact miss h
  | some e =>
    dsimp only
    split_ifs with hlt
    · refine ⟨h,fun id hid => ?_⟩
      cases hid
      exact (h.vouched raw e hl).trusted hlt
    · exact miss (h.erase raw)

/-- A run keeps the cache sound as long as the clock does not go back. -/
theorem run_sound {calls : List Call} (h : Sound v now cache) (hnow : ∀ c ∈ calls, now ≤ c.time)
    (hs : (calls.map Call.time).Pairwise (· ≤ ·)) :
    (v.run cache calls).1.entries.length ≤ maxTokenCache ∧
    ∀ c id, (c,.ok id) ∈ (v.run cache calls).2 → Trusted v c.time c.raw id := by
  induction calls generalizing cache now with
  | nil => exact ⟨h.size,fun c id hm => by cases hm⟩
  | cons call calls ih =>
    rw [List.map_cons,List.pairwise_cons] at hs
    obtain ⟨hstep,hans⟩ := verify_sound (h.later (hnow call List.mem_cons_self)) call.raw
    obtain ⟨hsize,hrest⟩ := ih hstep (fun c hc => hs.1 _ (List.mem_map_of_mem hc)) hs.2
    refine ⟨hsize,fun c id hm => ?_⟩
    rcases List.mem_cons.mp hm with he | hm
    · obtain ⟨rfl,he⟩ := Prod.mk.inj he
      exact hans id he.symm
    · exact hrest c id hm

/-- The cache never widens trust beyond its window: in calls at times that do not go back,
an identity is answered only for the token the issuer gave it to, at the time of the call or
within a minute before it and before the expiry reported then. The cache stays bounded. -/
theorem verify_within_window {calls : List Call} (hs : (calls.map Call.time).Pairwise (· ≤ ·)) :
    (∀ c id, (c,.ok id) ∈ (v.run ∅ calls).2 → Trusted v c.time c.raw id) ∧
    (v.run ∅ calls).1.entries.length ≤ maxTokenCache := by
  cases calls with
  | nil => exact ⟨fun c id hm => (by cases hm),Nat.zero_le _⟩
  | cons call calls =>
    have hempty : Sound v call.time ∅ := ⟨fun raw e hl => (by cases hl),Nat.zero_le _⟩
    have hnow : ∀ c ∈ call :: calls, call.time ≤ c.time := by
      intro c hc
      rcases List.mem_cons.mp hc with rfl | hc
      · exact le_rfl
      · exact (List.pairwise_cons.mp hs).1 _ (List.mem_map_of_mem hc)
    obtain ⟨hsize,hans⟩ := run_sound hempty hnow hs
    exact ⟨hans,hsize⟩

/-- A token that its issuer revokes after half a minute is answered from the cache until
the minute is over. -/
theorem revoked_token_window :
    let token : Token := ⟨0,some ((∅ : KeyedMap Str Claim).insert (str "sub") (.string (str "ann")))⟩
    let v : Verifier := { issuer := fun now _ => if now < 30000000000 then some token else none }
    let calls : List Call := [⟨1,str "t"⟩,⟨40000000000,str "t"⟩,⟨60000000001,str "t"⟩]
    (v.run ∅ calls).2.map Prod.snd = [.ok (str "ann"),.ok (str "ann"),.error .invalidToken] ∧
    Trusted v 40000000000 (str "t") (str "ann") := by
  intro token v calls
  have hs : (calls.map Call.time).Pairwise (· ≤ ·) := by decide
  have hm : (⟨40000000000,str "t"⟩,.ok (str "ann")) ∈ (v.run ∅ calls).2 := .tail _ (.head _)
  exact ⟨rfl,(verify_within_window hs).1 _ _ hm⟩

end Trust
end Zuul.Auth.Oidc
