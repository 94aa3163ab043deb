import Zuul.Fsm.Message
import Zuul.Lib.KeyedMap

/-! The gate in front of every RPC: who the caller is, from its token, its
certificate or its zuul-user header. -/
namespace Zuul.Auth
open Lib
open Fsm (Str str)

section Strings

/-- The UTF-8 encodings of the white space runes. -/
def spaces : List Str :=
  [[9],[10],[11],[12],[13],[32],[0xC2,0x85],[0xC2,0xA0],[0xE1,0x9A,0x80]] ++
  ((List.range 11).map (fun i => [0xE2,0x80,0x80 + UInt8.ofNat i])) ++
  [[0xE2,0x80,0xA8],[0xE2,0x80,0xA9],[0xE2,0x80,0xAF],[0xE2,0x81,0x9F],[0xE3,0x80,0x80]]

/-- Drop runes of the list from the left; there are at most fuel of them. -/
def trimLeft (runes : List Str) : Nat → Str → Str
  | 0, s => s
  | fuel + 1, s =>
    match runes.find? (·.isPrefixOf s) with
    | none => s
    | some w => trimLeft runes fuel (s.drop w.length)

def trimSpace (s : Str) : Str :=
  let s := trimLeft spaces s.length s
  (trimLeft (spaces.map List.reverse) s.length s.reverse).reverse

/-- ASCII case folding. No other rune folds to a letter of the strings it is used for. -/
def fold (b : UInt8) : UInt8 := if 65 ≤ b ∧ b ≤ 90 then b + 32 else b

def equalFold (s t : Str) : Bool := s.map fold == t.map fold

end Strings

inductive ErrorType where
  | missingCredentials | invalidToken | identityMismatch | peerCertRequired | peerCertUntrusted | peerCertNotAllowed
  deriving DecidableEq, Repr

inductive Category where
  | unauthenticated | permission
  deriving DecidableEq, Repr

structure AuthError where
  cat : Category
  type : ErrorType
  text : String
  deriving DecidableEq, Repr

structure Certificate where
  commonName : Str
  deriving DecidableEq

/-- How the connection is secured. The TLS layer has verified the certificates. -/
inductive AuthInfo where
  | insecure
  | tls (peerCertificates : List Certificate)
  deriving DecidableEq

/-- The parts of a request's context that the gate and the handlers read. The
keys of the metadata are in lower case. -/
structure Context where
  metadata : Option (KeyedMap Str (List Str)) := none
  peer : Option AuthInfo := none
  identity : Option Str := none

namespace Context

def withIdentity (ctx : Context) (identity : Str) : Context := { ctx with identity := some identity }

def peerLeaf (ctx : Context) : Option Certificate :=
  match ctx.peer with
  | some (.tls certs) => certs.head?
  | _ => none

/-- An attached identity that is not empty, else the name in the certificate. -/
def identityFromContext (ctx : Context) : Str × Bool :=
  match ctx.identity with
  | some (b :: id) => (b :: id,true)
  | _ =>
    match ctx.peerLeaf with
    | some cert => (cert.commonName,true)
    | none => ([],false)

/-- The first value of a metadata key, if there is one. -/
def first (ctx : Context) (key : Str) : Option Str := ctx.metadata.bind (fun md => ((md.lookup key).getD []).head?)

def firstMetadata (ctx : Context) (key : Str) : Str := ((ctx.first key).map trimSpace).getD []

end Context

def userHeader : Str := str "zuul-user"
def authorization : Str := str "authorization"
def bearerPrefix : Str := str "bearer "

inductive MethodClass where
  | client | peer | «open»
  deriving DecidableEq, Repr

def healthMethodPrefix : Str := str "/grpc.health.v1.Health/"
def forwardMethodPrefix : Str := str "/zuul.forward.Forwarder/"

def classify (fullMethod : Str) : MethodClass :=
  if healthMethodPrefix.isPrefixOf fullMethod then .open
  else if forwardMethodPrefix.isPrefixOf fullMethod then .peer
  else .client

/-- Static tokens by their SHA-256, and the verifier of OIDC tokens. -/
structure BearerAuth where
  tokens : KeyedMap Str Str := ∅
  oidc : Option (Str → Option Str) := none

namespace BearerAuth

def enabled (b : BearerAuth) : Bool := b.tokens.entries.length > 0 || b.oidc.isSome

/-- The token in an authorization value; the scheme may be left out. -/
def tokenOf (value : Str) : Str :=
  let token := trimSpace value
  if bearerPrefix.length ≤ token.length ∧ equalFold (token.take bearerPrefix.length) bearerPrefix then
    token.drop bearerPrefix.length
  else token

/-- The identity of a token: by the map, else by its claim. -/
def verify (sha256 : Str → Str) (b : BearerAuth) (token : Str) : Option Str :=
  match b.tokens.lookup (sha256 token) with
  | some identity => some identity
  | none => b.oidc.bind (· token)

def authenticate (sha256 : Str → Str) (b : BearerAuth) (ctx : Context) : Except AuthError Context :=
  match ctx.metadata with
  | none => .error ⟨.unauthenticated,.missingCredentials,"missing credentials"⟩
  | some md =>
    match ((md.lookup authorization).getD []).head? with
    | none => .error ⟨.unauthenticated,.missingCredentials,"missing authorization token"⟩
    | some value =>
      match b.verify sha256 (tokenOf value) with
      | some identity => .ok (ctx.withIdentity identity)
      | none => .error ⟨.unauthenticated,.invalidToken,"invalid authorization token"⟩

end BearerAuth

/-- peerCA tells which certificates chain to the peer CA. -/
structure AuthGate where
  bearer : BearerAuth := {}
  guardPeer : Bool := false
  peerCA : Option (Certificate → Bool) := none
  peerCNs : List Str := []

def reconcileUser (ctx : Context) : Except AuthError Context :=
  let user := ctx.firstMetadata userHeader
  let (authID,ok) := ctx.identityFromContext
  if ok = true ∧ authID ≠ [] then
    if user ≠ [] ∧ user ≠ authID then
      .error ⟨.permission,.identityMismatch,"zuul-user header does not match the authenticated identity"⟩
    else .ok ctx
  else if user ≠ [] then .ok (ctx.withIdentity user)
  else .ok ctx

namespace AuthGate

def verifyPeer (g : AuthGate) (ctx : Context) : Except AuthError Unit :=
  match ctx.peerLeaf with
  | none => .error ⟨.permission,.peerCertRequired,"forward plane requires a verified peer certificate"⟩
  | some cert =>
    if g.peerCA.any (fun issued => !issued cert) then
      .error ⟨.permission,.peerCertUntrusted,"forward plane peer certificate is not issued by the peer CA"⟩
    else if g.peerCNs ≠ [] ∧ !g.peerCNs.contains cert.commonName then
      .error ⟨.permission,.peerCertNotAllowed,"forward plane peer certificate Common Name is not an allowed node"⟩
    else .ok ()

def check (sha256 : Str → Str) (g : AuthGate) (ctx : Context) (fullMethod : Str) : Except AuthError Context :=
  match classify fullMethod with
  | .open => .ok ctx
  | .peer => if g.guardPeer then (g.verifyPeer ctx).map (fun _ => ctx) else .ok ctx
  | .client =>
    if g.bearer.enabled then (g.bearer.authenticate sha256 ctx).bind reconcileUser
    else reconcileUser ctx

/-- What the credentials of the caller say: the token, else the certificate. -/
def credential (sha256 : Str → Str) (g : AuthGate) (ctx : Context) : Option Str :=
  ((ctx.first authorization).bind (fun value => g.bearer.verify sha256 (BearerAuth.tokenOf value))).or
    (ctx.peerLeaf.map Certificate.commonName)

/-- Some method authenticates the caller. -/
def Active (g : AuthGate) (ctx : Context) : Prop := g.bearer.enabled = true ∨ ctx.peerLeaf ≠ none

end AuthGate

/-- The name in the certificate, or nothing. -/
def Context.certName (ctx : Context) : Str := (ctx.peerLeaf.map Certificate.commonName).getD []

section Identity
variable {sha256 : Str → Str} {g : AuthGate} {b : BearerAuth} {ctx ctx' : Context} {id : Str}

private theorem identity_attached (hi : ctx.identity = some id) :
    ctx.identityFromContext.1 = if id = [] then ctx.certName else id := by
  rw [Context.identityFromContext,hi,Context.certName]
  cases id with
  | nil =>
    cases ctx.peerLeaf with
    | none => rfl
    | some cert => rfl
  | cons b id => rfl

private theorem identity_absent (hi : ctx.identity = none) : ctx.identityFromContext.1 = ctx.certName := by
  rw [Context.identityFromContext,hi,Context.certName]
  cases ctx.peerLeaf with
  | none => rfl
  | some cert => rfl

private theorem presented (h : ctx.identityFromContext.1 ≠ []) : ctx.identityFromContext.2 = true := by
  rw [Context.identityFromContext] at h ⊢
  split
  · rfl
  · split
    · rfl
    · simp_all

private theorem reconciled (h : reconcileUser ctx = .ok ctx') : ctx'.identityFromContext.1 =
    if ctx.identityFromContext.1 = [] then ctx.firstMetadata userHeader else ctx.identityFromContext.1 := by
  rw [reconcileUser] at h
  by_cases hid : ctx.identityFromContext.1 = []
  · rw [if_pos hid]
    simp only [hid,ne_eq,not_true_eq_false,and_false,if_false] at h
    split at h
    · rename_i hu
      cases h
      exact (identity_attached rfl).trans (if_neg hu)
    · rename_i hu
      cases h
      rw [hid]
      exact (not_not.mp hu).symm
  · rw [if_neg hid]
    simp only [hid,presented hid,ne_eq,not_false_eq_true,and_self,if_true] at h
    split at h
    · cases h
    · cases h
      rfl

private theorem authenticated (h : b.authenticate sha256 ctx = .ok ctx') : ∃ value id,
    ctx.first authorization = some value ∧ b.verify sha256 (BearerAuth.tokenOf value) = some id ∧
    ctx' = ctx.withIdentity id := by
  rw [BearerAuth.authenticate] at h
  split at h
  · cases h
  · rename_i md hmd
    split at h
    · cases h
    · rename_i value hv
      split at h
      · rename_i id hid
        cases h
        refine ⟨value,id,?_,hid,rfl⟩
        rw [Context.first,hmd,Option.bind_some,hv]
      · cases h

private theorem verify_disabled (h : b.enabled = false) (token : Str) : b.verify sha256 token = none := by
  obtain ⟨ht,ho⟩ := Bool.or_eq_false_iff.mp h
  have hempty : b.tokens.lookup (sha256 token) = none := by
    cases hl : b.tokens.lookup (sha256 token) with
    | none => rfl
    | some id =>
      have hm := (KeyedMap.mem_entries_iff _ _ _).mpr hl
      have := List.length_pos_of_mem hm
      simp_all
  have hno : b.oidc = none := Option.isNone_iff_eq_none.mp (by simpa using ho)
  rw [BearerAuth.verify,hempty,hno]
  rfl

private theorem token_stands_iff (h : reconcileUser (ctx.withIdentity id) = .ok ctx') :
    ctx'.identityFromContext.1 = id ↔ id ≠ [] ∨ (ctx.certName = [] ∧ ctx.firstMetadata userHeader = []) := by
  -- an empty identity gives way where something else names the caller
  rw [reconciled h,identity_attached rfl]
  change (if (if id = [] then ctx.certName else id) = [] then ctx.firstMetadata userHeader
    else if id = [] then ctx.certName else id) = id ↔ _
  by_cases hnil : id = []
  · rw [if_pos hnil,hnil]
    by_cases hcn : ctx.certName = []
    · rw [if_pos hcn]
      simp [hcn]
    · rw [if_neg hcn]
      simp [hcn]
  · rw [if_neg hnil,if_neg hnil]
    exact iff_of_true rfl (.inl hnil)

private theorem certificate_stands_iff (hi : ctx.identity = none) (h : reconcileUser ctx = .ok ctx') :
    ctx'.identityFromContext.1 = ctx.certName ↔
      ctx.certName ≠ [] ∨ (ctx.certName = [] ∧ ctx.firstMetadata userHeader = []) := by
  rw [reconciled h,identity_absent hi]
  by_cases hcn : ctx.certName = []
  · rw [if_pos hcn]
    simp [hcn]
  · rw [if_neg hcn]
    exact iff_of_true rfl (.inl hcn)

/-- A request that is admitted runs under the identity of its credential exactly when
that identity is not empty, or nothing else can take its place: neither a name
in the certificate nor a zuul-user header. -/
theorem identity_from_credential_iff {fullMethod : Str} (hm : classify fullMethod = .client) (hi : ctx.identity = none)
    (ha : g.Active ctx) (hc : g.check sha256 ctx fullMethod = .ok ctx') :
    ∃ id, g.credential sha256 ctx = some id ∧ (ctx'.identityFromContext.1 = id ↔
      id ≠ [] ∨ (ctx.certName = [] ∧ ctx.firstMetadata userHeader = [])) := by
  rw [AuthGate.check,hm] at hc
  simp only at hc
  split at hc
  · rename_i hen
    cases hauth : g.bearer.authenticate sha256 ctx with
    | error e => rw [hauth] at hc; cases hc
    | ok ctx₁ =>
      rw [hauth] at hc
      obtain ⟨value,id,hv,hid,rfl⟩ := authenticated hauth
      refine ⟨id,?_,token_stands_iff hc⟩
      rw [AuthGate.credential,hv,Option.bind_some,hid]
      rfl
  · rename_i hdis
    have hoff := Bool.not_eq_true _ |>.mp hdis
    obtain ⟨cert,hcert⟩ := Option.ne_none_iff_exists'.mp (ha.resolve_left hdis)
    refine ⟨ctx.certName,?_,certificate_stands_iff hi hc⟩
    rw [AuthGate.credential,Context.certName,hcert]
    simp only [verify_disabled hoff,Option.bind_fun_none]
    rfl

/-- A static token, with a header that names the same identity. -/
theorem token_identity_seen :
    let ctx : Context :=
      { metadata := some ((KeyedMap.fill Prod.fst Prod.snd
          [(authorization,[str "Bearer sekrit"]),(userHeader,[str " orders-svc"])] ∅)) }
    let g : AuthGate := { bearer := { tokens := KeyedMap.fill Prod.fst Prod.snd [(str "sekrit",str "orders-svc")] ∅ } }
    ∃ ctx', g.check (fun t => t) ctx (str "/zuul.v1.Locker/Lock") = .ok ctx' ∧
      ctx'.identityFromContext.1 = str "orders-svc" := by
  intro ctx g
  have hc : g.check (fun t => t) ctx (str "/zuul.v1.Locker/Lock") = .ok (ctx.withIdentity (str "orders-svc")) := rfl
  obtain ⟨id,hid,hiff⟩ := identity_from_credential_iff (by decide) rfl (.inl (by decide)) hc
  have hcred : g.credential (fun t => t) ctx = some (str "orders-svc") := by decide +kernel
  cases hcred.symm.trans hid
  exact ⟨_,hc,hiff.mpr (.inl (by decide))⟩

/-- A verified certificate without a Common Name: its holder is whoever the
zuul-user header says. -/
theorem nameless_certificate_takes_header :
    let ctx : Context :=
      { metadata := some (KeyedMap.fill Prod.fst Prod.snd [(userHeader,[str "admin"])] ∅)
        peer := some (.tls [⟨[]⟩]) }
    let g : AuthGate := {}
    g.Active ctx ∧ g.credential (fun t => t) ctx = some [] ∧
    ∃ ctx', g.check (fun t => t) ctx (str "/zuul.v1.Locker/Lock") = .ok ctx' ∧ ctx'.identityFromContext.1 = str "admin" := by
  intro ctx g
  exact ⟨.inr (by decide),rfl,ctx.withIdentity (str "admin"),rfl,rfl⟩

end Identity
end Zuul.Auth
