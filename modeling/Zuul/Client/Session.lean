import Zuul.Lib.Runs
import Zuul.Lib.Ticks
import Zuul.Sessions.Streams

/-! The session of the client library: its heartbeat loop and the lease time it
assumes, against the TTL that the server grants. Durations are nanoseconds. -/
namespace Zuul.ClientSide
open Lib Fsm Ticks
open Sessions (Config Response)

/-- Duration.Milliseconds. -/
def milliseconds (d : Int64) : Int64 := d / 1000000

/-- The first KeepAliveRequest of a stream. -/
structure Request where
  clientID : Str
  ttlMS : Int64
  deriving DecidableEq

/-- The server's answer to it; an empty id is replaced by an assigned one. -/
def answer (cfg : Config) (assigned : Str) (now : Int64) (req : Request) : Response :=
  let ttlMS := cfg.clampTTL req.ttlMS
  { clientID := if req.clientID = [] then assigned else req.clientID
    ttlMS := ttlMS
    deadline := leaseDeadline now ttlMS }

structure Client where
  clientID : Str
  ttl : Int64
  deadlineNano : Int64 := 0
  lost : Bool := false
  deriving DecidableEq

namespace Client

/-- What establish sends. -/
def request (c : Client) : Request := { clientID := c.clientID, ttlMS := milliseconds c.ttl }

/-- A successful keepalive was received. -/
def renewed (c : Client) (now : Int64) : Client := { c with deadlineNano := now + c.ttl }

def leaseDeadline (c : Client) : Int64 := c.deadlineNano

def markLost (c : Client) : Client := { c with lost := true }

/-- The keepalive period, and the budget of one round trip. -/
def pulseInterval (c : Client) : Int64 :=
  let interval := c.ttl / 3
  if 0 < interval then interval else 1000000000

end Client

/-- Where New and then the heartbeat loop are. -/
inductive Stage where
  | dialing
  | ticking
  | retrying (since : Int64)
  | stopped
  deriving DecidableEq

/-- The client, with the TTL that the server granted when the stream was opened
and the time of the last renewal. -/
structure Session where
  client : Client
  stage : Stage := .dialing
  granted : Int64 := 0
  renewedAt : Int64 := 0
  deriving DecidableEq

inductive Event where
  /-- establish got its answer. -/
  | established (assigned : Str) (serverNow now : Int64)
  /-- establish failed for good, or its time is up. -/
  | refused
  /-- A pulse was answered. -/
  | pulsed (now : Int64)
  /-- A pulse failed or timed out. -/
  | broke (now : Int64)
  | closed

namespace Session

def establish (cfg : Config) (s : Session) (assigned : Str) (serverNow now : Int64) : Option Session :=
  let resp := answer cfg assigned serverNow s.client.request
  match s.stage with
  | .dialing =>
    some { client := { s.client with clientID := resp.clientID }.renewed now, stage := .ticking,
           granted := resp.ttlMS, renewedAt := now }
  | .retrying _ =>
    -- the server echoes the id
    some { client := s.client.renewed now, stage := .ticking, granted := resp.ttlMS, renewedAt := now }
  | _ => none

def refuse (s : Session) : Option Session :=
  match s.stage with
  | .dialing => some { s with stage := .stopped }
  | .retrying _ => some { s with stage := .stopped, client := s.client.markLost }
  | _ => none

/-- After a failed pulse the session is lost, or reestablish begins. -/
def reestablish (s : Session) (now : Int64) : Session :=
  if now < s.client.leaseDeadline then { s with stage := .retrying now }
  else { s with stage := .stopped, client := s.client.markLost }

def next (cfg : Config) (s : Session) : Event → Option Session
  | .established assigned serverNow now => s.establish cfg assigned serverNow now
  | .refused => s.refuse
  | .pulsed now =>
    if s.stage = .ticking then some { s with client := s.client.renewed now, renewedAt := now } else none
  | .broke now => if s.stage = .ticking then some (s.reestablish now) else none
  | .closed => if s.stage = .stopped then none else some { s with stage := .stopped }

/-- New was asked for a session with this TTL. -/
def start (clientID : Str) (ttl : Int64) : Session := { client := { clientID := clientID, ttl := ttl } }

/-- The session was established and has not ended. -/
def live (s : Session) : Bool :=
  match s.stage with
  | .ticking | .retrying _ => true
  | .dialing | .stopped => false

/-- What the granted TTL amounts to in nanoseconds. -/
def grant (s : Session) : Int := s.granted.toInt * 1000000

/-- The client pulses more often than the lease lapses, expects it to end no later
than it does, and takes no lapsed lease for a live one. -/
structure Agrees (s : Session) : Prop where
  period : s.client.pulseInterval.toInt < s.grant
  deadline : s.client.deadlineNano.toInt ≤ s.renewedAt.toInt + s.grant
  alive : ∀ since, s.stage = .retrying since → since.toInt < s.renewedAt.toInt + s.grant

end Session

/-- The bounds of the server are positive, in order, and whole milliseconds. -/
structure Bounds (cfg : Config) : Prop where
  pos : 0 < cfg.minTTL
  min_le : cfg.minTTL ≤ cfg.defaultTTL
  le_max : cfg.defaultTTL ≤ cfg.maxTTL
  whole : ∀ b ∈ [cfg.minTTL,cfg.defaultTTL,cfg.maxTTL], b % 1000000 = 0

/-- The TTL is one that the server does not cut: below the minimum or a
millisecond, or of whole milliseconds up to the maximum. One of less than three
nanoseconds also needs a default above a second. -/
def Fits (cfg : Config) (d : Int64) : Prop :=
  (d < 1000000 ∨ d < cfg.minTTL ∨ (d % 1000000 = 0 ∧ d ≤ cfg.maxTTL)) ∧ (3 ≤ d ∨ 1000000000 < cfg.defaultTTL)

instance (cfg : Config) (d : Int64) : Decidable (Fits cfg d) := inferInstanceAs (Decidable (_ ∧ _))

section Arithmetic
variable {cfg : Config} {d : Int64}

private theorem toInt_milliseconds (hd : 0 < d.toInt) : (milliseconds d).toInt = d.toInt / 1000000 ∧
    (milliseconds d * 1000000).toInt = d.toInt / 1000000 * 1000000 := by
  have hq : (milliseconds d).toInt = d.toInt / 1000000 := toInt_quot hd.le (by decide)
  have hd' := d.toInt_lt
  refine ⟨hq,?_⟩
  rw [Int64.toInt_mul,hq]
  have hm : (1000000 : Int64).toInt = 1000000 := rfl
  rw [hm]
  exact Int.bmod_eq_of_le (by omega) (by omega)

private theorem whole_nanos (hd : 0 ≤ d.toInt) (hw : d % 1000000 = 0) : (d / 1000000).toInt * 1000000 = d.toInt := by
  have hq : (d / 1000000).toInt = d.toInt / 1000000 := toInt_quot hd (by decide)
  have hr : (d % 1000000).toInt = d.toInt % 1000000 := toInt_rem hd
  have hz : (0 : Int64).toInt = 0 := rfl
  rw [hw,hz] at hr
  omega

private theorem Bounds.ints (h : Bounds cfg) : 0 < cfg.minTTL.toInt ∧ cfg.minTTL.toInt ≤ cfg.defaultTTL.toInt ∧
    cfg.defaultTTL.toInt ≤ cfg.maxTTL.toInt :=
  ⟨Int64.lt_iff_toInt_lt.mp h.pos,Int64.le_iff_toInt_le.mp h.min_le,Int64.le_iff_toInt_le.mp h.le_max⟩

private theorem Bounds.nanos (h : Bounds cfg) {b : Int64} (hb : b ∈ [cfg.minTTL,cfg.defaultTTL,cfg.maxTTL]) :
    (b / 1000000).toInt * 1000000 = b.toInt ∧ b.toInt % 1000000 = 0 := by
  obtain ⟨hmin,hdef,hmax⟩ := h.ints
  have hpos : 0 ≤ b.toInt := by
    simp only [List.mem_cons,List.not_mem_nil,or_false] at hb
    rcases hb with rfl | rfl | rfl
    all_goals omega
  have hn := whole_nanos hpos (h.whole b hb)
  exact ⟨hn,by omega⟩

private theorem toInt_clampTTL (h : Bounds cfg) (hd : 0 < d.toInt) :
    (cfg.clampTTL (milliseconds d)).toInt * 1000000 =
      if d.toInt < 1000000 then cfg.defaultTTL.toInt
      else if d.toInt / 1000000 * 1000000 < cfg.minTTL.toInt then cfg.minTTL.toInt
      else if cfg.maxTTL.toInt < d.toInt / 1000000 * 1000000 then cfg.maxTTL.toInt
      else d.toInt / 1000000 * 1000000 := by
  obtain ⟨hms,hns⟩ := toInt_milliseconds hd
  have hle : milliseconds d ≤ 0 ↔ d.toInt < 1000000 := by
    rw [Int64.le_iff_toInt_le,hms]
    change d.toInt / 1000000 ≤ 0 ↔ _
    omega
  simp only [Config.clampTTL,hle,Int64.lt_iff_toInt_lt,hns]
  split
  · exact (h.nanos (by simp)).1
  · split
    · exact (h.nanos (by simp)).1
    · split
      · exact (h.nanos (by simp)).1
      · have hq : (milliseconds d * 1000000 / 1000000).toInt = (milliseconds d * 1000000).toInt / 1000000 :=
          toInt_quot (by omega) (by decide)
        rw [hq,hns]
        omega

private theorem fits_iff (h : Bounds cfg) (hd : 0 < d) {c : Client} (hc : c.ttl = d) :
    Fits cfg d ↔ d.toInt ≤ (cfg.clampTTL (milliseconds d)).toInt * 1000000 ∧
      c.pulseInterval.toInt < (cfg.clampTTL (milliseconds d)).toInt * 1000000 := by
  have hd : 0 < d.toInt := Int64.lt_iff_toInt_lt.mp hd
  obtain ⟨hmin,hdef,hmax⟩ := h.ints
  have wmin := (h.nanos (b := cfg.minTTL) (by simp)).2
  have wdef := (h.nanos (b := cfg.defaultTTL) (by simp)).2
  have wmax := (h.nanos (b := cfg.maxTTL) (by simp)).2
  have hthird : (d / 3).toInt = d.toInt / 3 := toInt_quot hd.le (by decide)
  have hrem : d % 1000000 = 0 ↔ d.toInt % 1000000 = 0 := by
    rw [← Int64.toInt_inj,toInt_rem hd.le]
    rfl
  have hpulse : c.pulseInterval.toInt = if 0 < d.toInt / 3 then d.toInt / 3 else 1000000000 := by
    simp only [Client.pulseInterval,hc,Int64.lt_iff_toInt_lt,hthird]
    split
    · rw [hthird,if_pos ‹_›]
    · rw [if_neg ‹_›]
      rfl
  have c1 : (1000000 : Int64).toInt = 1000000 := rfl
  have c2 : (3 : Int64).toInt = 3 := rfl
  have c3 : (1000000000 : Int64).toInt = 1000000000 := rfl
  rw [hpulse,toInt_clampTTL h hd,Fits,hrem,Int64.lt_iff_toInt_lt,Int64.lt_iff_toInt_lt,Int64.lt_iff_toInt_lt,
    Int64.le_iff_toInt_le,Int64.le_iff_toInt_le,c1,c2,c3]
  split_ifs
  all_goals omega

end Arithmetic
section Runs
variable {cfg : Config} {d : Int64} {id : Str} {s s' : Session} {e : Event}

/-- The client goes by the TTL it asked for, whatever the server granted. -/
private structure Steady (cfg : Config) (d : Int64) (s : Session) : Prop where
  ttl : s.client.ttl = d
  granted : s.live = true → s.granted = cfg.clampTTL (milliseconds d)
  deadline : s.live = true → s.client.deadlineNano = s.renewedAt + d
  since : ∀ since, s.stage = .retrying since → since < s.client.deadlineNano

private theorem steady_off (ht : s.client.ttl = d) (hl : s.live = false) : Steady cfg d s := by
  refine ⟨ht,?_,?_,fun since hst => ?_⟩
  · rw [hl]
    exact fun hx => by cases hx
  · rw [hl]
    exact fun hx => by cases hx
  · rw [Session.live,hst] at hl
    cases hl

private theorem steady_next (h : Steady cfg d s) (hn : s.next cfg e = some s') : Steady cfg d s' := by
  have hrequest : s.client.request.ttlMS = milliseconds d := by rw [Client.request,h.ttl]
  cases e with
  | established assigned serverNow now =>
    simp only [Session.next,Session.establish] at hn
    split at hn
    · cases hn
      exact ⟨h.ttl,fun _ => congrArg cfg.clampTTL hrequest,fun _ => congrArg (now + ·) h.ttl,fun _ hx => by cases hx⟩
    · cases hn
      exact ⟨h.ttl,fun _ => congrArg cfg.clampTTL hrequest,fun _ => congrArg (now + ·) h.ttl,fun _ hx => by cases hx⟩
    · cases hn
  | refused =>
    simp only [Session.next,Session.refuse] at hn
    split at hn
    · cases hn
      exact steady_off h.ttl rfl
    · cases hn
      exact steady_off h.ttl rfl
    · cases hn
  | pulsed now =>
    simp only [Session.next] at hn
    split at hn
    · rename_i hst
      cases hn
      refine ⟨h.ttl,h.granted,fun _ => congrArg (now + ·) h.ttl,fun since hx => ?_⟩
      cases hst.symm.trans hx
    · cases hn
  | broke now =>
    simp only [Session.next] at hn
    split at hn
    · rename_i hst
      have hlive : s.live = true := by rw [Session.live,hst]
      cases hn
      rw [Session.reestablish]
      split
      · refine ⟨h.ttl,fun _ => h.granted hlive,fun _ => h.deadline hlive,fun since hx => ?_⟩
        cases hx
        assumption
      · exact steady_off h.ttl rfl
    · cases hn
  | closed =>
    simp only [Session.next] at hn
    split at hn
    · cases hn
    · cases hn
      exact steady_off h.ttl rfl

private theorem steady_reached (h : Reaches (Session.next cfg) (fun _ _ => True) (.start id d) s) : Steady cfg d s :=
  h.rule (steady_off rfl rfl) (fun _ _ _ hs _ => steady_next hs)

/-- In every session asked for with the TTL d the client and the server agree on the
lease, in every state and whatever fails, exactly when d is a TTL that fits. -/
theorem client_agrees_iff (hb : Bounds cfg) (hd : 0 < d) (id : Str) :
    (∀ s, Reaches (Session.next cfg) (fun _ _ => True) (.start id d) s → s.live = true → s.Agrees) ↔ Fits cfg d := by
  have hpos : 0 < d.toInt := Int64.lt_iff_toInt_lt.mp hd
  constructor
  · intro hall
    -- the session right after New, with the clock at zero
    obtain ⟨s,hs⟩ : ∃ s, (Session.start id d).next cfg (.established [] 0 0) = some s := ⟨_,rfl⟩
    have hr : Reaches (Session.next cfg) (fun _ _ => True) (.start id d) s := Reaches.init.step trivial hs
    have hlive : s.live = true ∧ s.renewedAt = 0 := by
      cases hs
      exact ⟨rfl,rfl⟩
    have ha := hall s hr hlive.1
    have hst := steady_reached hr
    have hg : s.grant = (cfg.clampTTL (milliseconds d)).toInt * 1000000 := by rw [Session.grant,hst.granted hlive.1]
    refine (fits_iff hb hd hst.ttl).mpr ⟨?_,hg ▸ ha.period⟩
    have hdl := ha.deadline
    have hz : (0 : Int64).toInt = 0 := rfl
    rw [hst.deadline hlive.1,hlive.2,Int64.zero_add,hz,Int.zero_add,hg] at hdl
    exact hdl
  · intro hf s hr hl
    have hs := steady_reached hr
    obtain ⟨hle,hpulse⟩ := (fits_iff hb hd hs.ttl).mp hf
    have hg : s.grant = (cfg.clampTTL (milliseconds d)).toInt * 1000000 := by rw [Session.grant,hs.granted hl]
    have hdl : s.client.deadlineNano.toInt ≤ s.renewedAt.toInt + s.grant := by
      rw [hs.deadline hl,hg]
      exact (toInt_add_le hpos).trans (by omega)
    refine ⟨hg ▸ hpulse,hdl,fun since hst => ?_⟩
    exact (Int64.lt_iff_toInt_lt.mp (hs.since since hst)).trans_le hdl

/-- The default TTL of the client, under the default bounds of the server. -/
theorem default_ttl_agrees : Fits { shards := [] } 30000000000 ∧
    ∀ s, Reaches (Session.next { shards := [] }) (fun _ _ => True) (.start [] 30000000000) s → s.live = true →
      s.Agrees := by
  have hb : Bounds { shards := [] } :=
    ⟨by decide,by decide,by decide,List.forall_iff_forall_mem.mp ⟨by decide,by decide,by decide⟩⟩
  have hf : Fits { shards := [] } 30000000000 := by decide
  exact ⟨hf,(client_agrees_iff hb (by decide) []).mpr hf⟩

/-- A TTL of 1000 s under the default bounds: the server grants 300 s, and the
client pulses every 333 s and expects the lease to last 1000 s. -/
theorem long_ttl_outlives_grant : ∃ s, Reaches (Session.next { shards := [] }) (fun _ _ => True)
    (.start (str "a") 1000000000000) s ∧ s.live = true ∧ s.grant = 300000000000 ∧
    s.client.pulseInterval = 333333333333 ∧ s.renewedAt = 0 ∧ s.client.deadlineNano = 1000000000000 := by
  have hrun : ∃ s ∈ exec (Session.next { shards := [] }) (fun _ _ => True) (.start (str "a") 1000000000000)
      [.established [] 0 0], s.live = true ∧ s.grant = 300000000000 ∧ s.client.pulseInterval = 333333333333 ∧
      s.renewedAt = 0 ∧ s.client.deadlineNano = 1000000000000 := by decide +kernel
  obtain ⟨s,hs,hres⟩ := hrun
  exact ⟨s,exec_reaches .init hs,hres⟩

end Runs
end Zuul.ClientSide
