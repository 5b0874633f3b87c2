import Mathlib.Tactic
import Kraken.Iam.Lru

/-! The credentials that an identity service issues for a token and a role, cached by the
pointer to the token. The service, the session and the configuration are outside. -/
namespace Kraken.Iam

variable {κ ε : Type*} [DecidableEq κ]

/- What the pointer to a token leads to. Points in time count nanoseconds; there is no expiry
behind the zero time. -/
structure Token where
  id_token : Option String
  Expiry : Option Int

structure Credentials where
  AccessKeyID : String
  SecretAccessKey : String
  SessionToken : String
  CanExpire : Bool
  Expires : Int
  deriving DecidableEq, Repr

def Credentials.Expired (creds : Credentials) (now : Int) : Bool :=
  creds.CanExpire && decide (creds.Expires ≤ now)

structure AssumeRoleWithWebIdentityInput where
  DurationSeconds : Int
  RoleArn : String
  RoleSessionName : String
  WebIdentityToken : String
  deriving DecidableEq, Repr

/- The keys and the expiration that the service issues. -/
structure Issued where
  AccessKeyId : String
  SecretAccessKey : String
  SessionToken : String
  Expiration : Int

inductive RetrieveError (ε : Type*) where
  | config (err : ε)
  | token (err : ε)
  | assumeRole (err : ε)
  | panic

/- A call of a provider: its fields, the name and the token of its session, the time. -/
structure Call (κ ε : Type*) where
  Role : String
  Region : String
  UserName : String
  config : Option ε
  token : Except ε κ
  now : Int

abbrev Service (ε : Type*) :=
  String → Int → AssumeRoleWithWebIdentityInput → Except ε Issued

variable (tokens : κ → Token) (service : Service ε)

def int32 (n : Int) : Int := (BitVec.ofInt 32 n).toInt

def maxexp (tok : Token) (now : Int) : Int :=
  match tok.Expiry with
  | none => 3600
  | some expiry => (expiry - now).tdiv 1000000000

def credentials (resp : Issued) : Credentials where
  AccessKeyID := resp.AccessKeyId
  SecretAccessKey := resp.SecretAccessKey
  SessionToken := resp.SessionToken
  CanExpire := true
  Expires := resp.Expiration

/- The part behind a miss. -/
def issue (call : Call κ ε) (tok : κ) : Except (RetrieveError ε) Credentials :=
  match (tokens tok).id_token with
  | none => .error .panic
  | some id => match service call.Region call.now
      ⟨int32 (maxexp (tokens tok) call.now),call.Role,call.UserName,id⟩ with
    | .error err => .error (.assumeRole err)
    | .ok resp => .ok (credentials resp)

/- The credentials in the cache, if they are not expired. -/
def hit (cached : Option Credentials) (now : Int) : Option Credentials :=
  cached.filter fun creds => !creds.Expired now

def fetch (credsCache : Lru.Cache κ Credentials) (call : Call κ ε) (tok : κ) :
    Except (RetrieveError ε) Credentials × Lru.Cache κ Credentials :=
  let got := credsCache.Get tok
  match hit got.1 call.now with
  | some creds => (.ok creds,got.2)
  | none => match issue tokens service call tok with
    | .error err => (.error err,got.2)
    | .ok creds => (.ok creds,got.2.Add tok creds)

def Retrieve (credsCache : Lru.Cache κ Credentials) (call : Call κ ε) :
    Except (RetrieveError ε) Credentials × Lru.Cache κ Credentials :=
  match call.config with
  | some err => (.error (.config err),credsCache)
  | none => match call.token with
    | .error err => (.error (.token err),credsCache)
    | .ok tok => fetch tokens service credsCache call tok

/-! A run, with the keys in the order of their last use, and the role of the last call that put
credentials under a key. -/

/- The key of a call that comes to the cache. -/
def Call.key (call : Call κ ε) : Option κ :=
  match call.config with
  | some _ => none
  | none => call.token.toOption

structure State (κ : Type*) where
  credsCache : Lru.Cache κ Credentials
  uses : List κ
  roles : κ → Option String

def State.init : State κ := ⟨Lru.lru 400,[],fun _ => none⟩

/- The credentials that a call gets from the service. -/
def issued (s : State κ) (call : Call κ ε) : Option (κ × Credentials) :=
  call.key.bind fun tok => match hit (s.credsCache.Get tok).1 call.now with
    | some _ => none
    | none => (issue tokens service call tok).toOption.map fun creds => (tok,creds)

def State.step (s : State κ) (call : Call κ ε) : State κ where
  credsCache := (Retrieve tokens service s.credsCache call).2
  uses := ((issued tokens service s call).map Prod.fst).toList ++
    (call.key.filter fun tok => tok ∈ s.credsCache.keys).toList ++ s.uses
  roles := match issued tokens service s call with
    | none => s.roles
    | some p => Function.update s.roles p.1 (some call.Role)

def run (calls : List (Call κ ε)) : State κ := calls.foldl (State.step tokens service) State.init

/- The entry for the token was filled for the role that the call asks for, unless it is of no
use to the call. -/
def Own (s : State κ) (call : Call κ ε) : Prop :=
  ∀ tok creds, call.key = some tok → ⟨tok,creds⟩ ∈ s.credsCache.entries →
    creds.Expired call.now = false → s.roles tok = some call.Role

/- A call of the run for the same token and role that the service answered with these. -/
def IssuedIn (calls : List (Call κ ε)) (tok : κ) (role : String) (creds : Credentials) : Prop :=
  ∃ call ∈ calls, call.key = some tok ∧ call.Role = role ∧ issue tokens service call tok = .ok creds

/- The cache holds the keys used last, at most 400. -/
structure Latest (c : Lru.Cache κ Credentials) (uses : List κ) : Prop where
  linked : c.Linked
  capacity : c.MaxEntries = 400
  latest : c.keys = (Lru.recent uses).take 400

structure Cached (calls : List (Call κ ε)) (s : State κ) : Prop where
  latest : Latest s.credsCache s.uses
  filled : ∀ e ∈ s.credsCache.entries, ∃ role, s.roles e.key = some role ∧
    IssuedIn tokens service calls e.key role e.value

variable {tokens service}

theorem Latest.limit {c : Lru.Cache κ Credentials} {uses : List κ} (held : Latest c uses) :
    c.limit := by
  have size := congrArg List.length held.latest
  rw [Lru.Cache.keys,List.length_map,List.length_take] at size
  rw [Lru.Cache.limit,held.capacity]
  omega

theorem Latest.get {c : Lru.Cache κ Credentials} {uses : List κ} (held : Latest c uses) (tok : κ) :
    Latest (c.Get tok).2 (((some tok).filter (· ∈ c.keys)).toList ++ uses) ∧
      (c.Get tok).2.entries ⊆ c.entries ∧
      ∀ creds, (c.Get tok).1 = some creds → ⟨tok,creds⟩ ∈ c.entries := by
  by_cases present : tok ∈ c.keys
  · obtain ⟨v,member,value,linked,keys,kept,capacity⟩ :=
      Lru.Cache.getFound held.linked held.limit present
    have used : (((some tok).filter (· ∈ c.keys)).toList ++ uses) = tok::uses := by
      rw [Option.filter_some,if_pos (decide_eq_true present)]
      rfl
    refine ⟨⟨linked,capacity.trans held.capacity,?_⟩,kept,fun creds found => ?_⟩
    · rw [used,keys,held.capacity,held.latest]
      exact Lru.touchRecent 400 tok uses
    · cases Option.some.inj (value.symm.trans found)
      exact member
  · have used : (((some tok).filter (· ∈ c.keys)).toList ++ uses) = uses := by
      rw [Option.filter_some,if_neg (by simpa using present)]
      rfl
    rw [Lru.Cache.getMissed held.linked present,used]
    exact ⟨held,fun _ inside => inside,fun creds found => nomatch found⟩

theorem Latest.add {c : Lru.Cache κ Credentials} {uses : List κ} (held : Latest c uses) (tok : κ)
    (creds : Credentials) : Latest (c.Add tok creds) (tok::uses) := by
  obtain ⟨linked,keys,_,capacity⟩ := Lru.Cache.addSpec held.linked held.limit tok creds
  refine ⟨linked,capacity.trans held.capacity,?_⟩
  rw [keys,held.capacity,held.latest]
  exact Lru.touchRecent 400 tok uses

theorem retrieveKeyed {call : Call κ ε} {tok : κ} (keyed : call.key = some tok)
    (c : Lru.Cache κ Credentials) : Retrieve tokens service c call = fetch tokens service c call tok := by
  rw [Call.key] at keyed
  rw [Retrieve]
  cases config : call.config with
  | some err => simp [config] at keyed
  | none =>
    simp only [config] at keyed
    cases token : call.token with
    | error err => rw [token] at keyed; cases keyed
    | ok tok' =>
      rw [token] at keyed
      cases Option.some.inj keyed
      rfl

theorem retrieveKeyless {call : Call κ ε} (keyless : call.key = none) (c : Lru.Cache κ Credentials) :
    (∃ err, (Retrieve tokens service c call).1 = .error err) ∧
      (Retrieve tokens service c call).2 = c := by
  rw [Call.key] at keyless
  rw [Retrieve]
  cases config : call.config with
  | some err => exact ⟨⟨_,rfl⟩,rfl⟩
  | none =>
    simp only [config] at keyless
    cases token : call.token with
    | error err => exact ⟨⟨_,rfl⟩,rfl⟩
    | ok tok => rw [token] at keyless; cases keyless

omit [DecidableEq κ] in
theorem IssuedIn.later {calls more : List (Call κ ε)} {tok : κ} {role : String} {creds : Credentials}
    (given : IssuedIn tokens service calls tok role creds) :
    IssuedIn tokens service (calls ++ more) tok role creds := by
  obtain ⟨call,inside,rest⟩ := given
  exact ⟨call,List.mem_append_left _ inside,rest⟩

omit [DecidableEq κ] in
theorem hitSome {cached : Option Credentials} {now : Int} {creds : Credentials}
    (found : hit cached now = some creds) : cached = some creds ∧ creds.Expired now = false := by
  obtain ⟨same,live⟩ := Option.filter_eq_some_iff.mp found
  exact ⟨same,by simpa using live⟩

theorem Cached.step {calls : List (Call κ ε)} {s : State κ} (held : Cached tokens service calls s)
    (call : Call κ ε) : Cached tokens service (calls ++ [call]) (s.step tokens service call) := by
  obtain ⟨latest,filled⟩ := held
  have old (e : Lru.Entry κ Credentials) (inside : e ∈ s.credsCache.entries) :
      ∃ role, s.roles e.key = some role ∧ IssuedIn tokens service (calls ++ [call]) e.key role e.value := by
    obtain ⟨role,same,given⟩ := filled e inside
    exact ⟨role,same,given.later⟩
  cases keyed : call.key with
  | none =>
    have same : s.step tokens service call = s := by
      simp [State.step,issued,keyed,(retrieveKeyless keyed s.credsCache).2]
    rw [same]
    exact ⟨latest,old⟩
  | some tok =>
    obtain ⟨got,kept,_⟩ := latest.get tok
    cases found : hit (s.credsCache.Get tok).1 call.now with
    | some creds =>
      have none_issued : issued tokens service s call = none := by simp [issued,keyed,found]
      have cache : (s.step tokens service call).credsCache = (s.credsCache.Get tok).2 := by
        simp [State.step,retrieveKeyed keyed,fetch,found]
      refine ⟨?_,fun e inside => ?_⟩
      · rw [cache,State.step,none_issued,keyed]
        exact got
      · rw [cache] at inside
        rw [State.step,none_issued]
        exact old e (kept inside)
    | none =>
      cases given : issue tokens service call tok with
      | error err =>
        have none_issued : issued tokens service s call = none := by
          simp [issued,keyed,found,given,Except.toOption]
        have cache : (s.step tokens service call).credsCache = (s.credsCache.Get tok).2 := by
          simp [State.step,retrieveKeyed keyed,fetch,found,given]
        refine ⟨?_,fun e inside => ?_⟩
        · rw [cache,State.step,none_issued,keyed]
          exact got
        · rw [cache] at inside
          rw [State.step,none_issued]
          exact old e (kept inside)
      | ok creds =>
        have one_issued : issued tokens service s call = some (tok,creds) := by
          simp [issued,keyed,found,given,Except.toOption]
        have cache : (s.step tokens service call).credsCache =
            (s.credsCache.Get tok).2.Add tok creds := by
          simp [State.step,retrieveKeyed keyed,fetch,found,given]
        refine ⟨?_,fun e inside => ?_⟩
        · rw [cache,State.step,one_issued,keyed]
          exact got.add tok creds
        · rw [cache] at inside
          rw [State.step,one_issued]
          obtain ⟨_,_,added,_⟩ := Lru.Cache.addSpec got.linked got.limit tok creds
          rcases added e inside with rfl | ⟨differ,inside⟩
          · exact ⟨call.Role,Function.update_self _ _ _,call,by simp,keyed,rfl,given⟩
          · obtain ⟨role,same,given⟩ := old e (kept inside)
            exact ⟨role,(Function.update_of_ne differ _ _).trans same,given⟩

theorem cachedRun (calls : List (Call κ ε)) :
    Cached tokens service calls (run tokens service calls) := by
  induction calls using List.reverseRecOn with
  | nil =>
    refine ⟨⟨⟨List.nodup_nil,fun e inside => absurd inside (List.not_mem_nil),fun k a => ?_⟩,rfl,rfl⟩,
      fun e inside => absurd inside (List.not_mem_nil)⟩
    exact iff_of_false (by simp [State.init,run,Lru.lru]) fun ⟨e,inside,_⟩ => absurd inside (List.not_mem_nil)
  | append_singleton calls call ih =>
    rw [run,List.foldl_append]
    exact ih.step call

/-- The cache never holds more than 400 entries, those of the keys used last, and a call gets
unexpired credentials that were issued for its own token and role, as long as an unexpired entry
for its token was filled for that role. -/
theorem retrieveOwn
    (live : ∀ region now req resp, service region now req = .ok resp → now < resp.Expiration)
    (calls : List (Call κ ε)) (call : Call κ ε) :
    (run tokens service calls).credsCache.ll.length ≤ 400 ∧
    (run tokens service calls).credsCache.keys = (Lru.recent (run tokens service calls).uses).take 400 ∧
    (Own (run tokens service calls) call → ∀ creds,
      (Retrieve tokens service (run tokens service calls).credsCache call).1 = .ok creds →
      creds.Expired call.now = false ∧ ∃ tok, call.key = some tok ∧
        IssuedIn tokens service (calls ++ [call]) tok call.Role creds) := by
  obtain ⟨latest,filled⟩ := @cachedRun _ _ _ tokens service calls
  refine ⟨latest.capacity ▸ latest.limit.2,latest.latest,fun own creds returned => ?_⟩
  cases keyed : call.key with
  | none =>
    obtain ⟨⟨err,failed⟩,_⟩ := retrieveKeyless keyed (run tokens service calls).credsCache
    cases failed.symm.trans returned
  | some tok =>
    rw [retrieveKeyed keyed,fetch] at returned
    cases found : hit ((run tokens service calls).credsCache.Get tok).1 call.now with
    | some cached =>
      simp only [found] at returned
      cases Except.ok.inj returned
      obtain ⟨same,unexpired⟩ := hitSome found
      have inside := (latest.get tok).2.2 _ same
      obtain ⟨role,filledFor,given⟩ := filled _ inside
      cases Option.some.inj (filledFor.symm.trans (own tok _ keyed inside unexpired))
      exact ⟨unexpired,tok,rfl,given.later⟩
    | none =>
      cases given : issue tokens service call tok with
      | error err => simp [found,given] at returned
      | ok fresh =>
        simp only [found,given] at returned
        cases Except.ok.inj returned
        refine ⟨?_,tok,rfl,call,by simp,keyed,rfl,given⟩
        rw [issue] at given
        cases id : (tokens tok).id_token with
        | none => simp [id] at given
        | some id' =>
          simp only [id] at given
          cases answer : service call.Region call.now
              ⟨int32 (maxexp (tokens tok) call.now),call.Role,call.UserName,id'⟩ with
          | error err => simp [answer] at given
          | ok resp =>
            simp only [answer] at given
            cases Except.ok.inj given
            exact decide_eq_false (not_le.mpr (live _ _ _ _ answer))

/-! One session, whose token never expires, at a service that names the role in the key. -/

def oneToken : Nat → Token := fun _ => ⟨some "jwt",none⟩

def namedKeys : Service Unit := fun _ now input => .ok ⟨input.RoleArn,"secret","session",now+1⟩

def asking (role : String) : Call Nat Unit := ⟨role,"eu-west-3","ada",none,.ok 0,5⟩

theorem sameRole : Own (run oneToken namedKeys [asking "reader"]) (asking "reader") ∧
    (run oneToken namedKeys [asking "reader"]).credsCache.keys = [0] ∧
    ∃ tok, (asking "reader").key = some tok ∧
      IssuedIn oneToken namedKeys [asking "reader",asking "reader"] tok "reader"
        ⟨"reader","secret","session",true,6⟩ := by
  have own : Own (run oneToken namedKeys [asking "reader"]) (asking "reader") := by
    intro tok creds keyed _ _
    cases Option.some.inj keyed
    rfl
  have live : ∀ region now req resp, namedKeys region now req = .ok resp → now < resp.Expiration := by
    intro region now req resp answer
    cases Except.ok.inj answer
    exact Int.lt_succ now
  obtain ⟨_,keys,given⟩ := retrieveOwn live [asking "reader"] (asking "reader")
  exact ⟨own,keys,(given own _ rfl).2⟩

/- The second call asks for another role, and gets the credentials of the first. -/
theorem otherRole : ∃ creds, (Retrieve oneToken namedKeys
      (run oneToken namedKeys [asking "reader"]).credsCache (asking "admin")).1 = .ok creds ∧
    ¬ IssuedIn oneToken namedKeys [asking "reader",asking "admin"] 0 "admin" creds := by
  refine ⟨_,rfl,fun ⟨call,inside,_,role,given⟩ => ?_⟩
  rcases List.mem_cons.mp inside with rfl | inside
  · exact absurd role (by decide)
  · cases List.mem_singleton.mp inside
    exact absurd (congrArg Credentials.AccessKeyID (Except.ok.inj given)) (by decide)

end Kraken.Iam
