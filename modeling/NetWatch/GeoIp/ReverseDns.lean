import NetWatch.Lib.JsValue
import NetWatch.Lib.Lru
import NetWatch.Lib.Runs
import Mathlib.Tactic.Tauto

namespace NetWatch.GeoIp.ReverseDns

open Lib Lib.Assoc Lib.JsValue Lib.Runs

abbrev Names := Dict Units (Option Units)

abbrev Cache := Lru.Cache Units (Option Units)

def rdnsMaxPerRequest : ℕ := 20

def cacheSize : ℕ := 10000

def ttlMs : ℤ := 3600000

/-- An object has no property of its own with this name. -/
def proto : Units := units "__proto__"

def assign (ip : Units) (name : Option Units) (names : Names) : Names :=
  if ip = proto then names else names.insert ip name

structure Response where
  names : Names
  pending : List Units

structure Request where
  names : Names
  pending : List Units
  todo : List Units
  done : List Units
  /-- The budget is over. -/
  fired : Bool
  response : Option Response

def Request.empty : Request := ⟨.empty, [], [], [], false, none⟩

def Request.respond (q : Request) : Request :=
  { q with response := some ⟨q.names, q.pending ++ q.todo.filter (· ∉ q.done)⟩ }

inductive Outcome
  | hosts (names : List Units)
  | failed (code : String)

def Outcome.name : Outcome → Option Units
  | .hosts names => names.head?
  | .failed _ => none

/-- What is cached: no such name is an answer, another failure is none. -/
def Outcome.answer? : Outcome → Option (Option Units)
  | .hosts names => some names.head?
  | .failed code => if code = "ENOTFOUND" ∨ code = "ENODATA" then some none else none

structure Rdns where
  enabled : Bool
  cache : Cache
  requests : List Request

inductive Event
  /-- A call of `lookup`, with the time at which the cache is asked for each address. -/
  | lookup (ips : List Units) (clock : Units → ℤ)
  /-- A call of the resolver for a request ends. -/
  | settle (i : ℕ) (ip : Units) (outcome : Outcome) (now : ℤ)
  | timeout (i : ℕ)
  | respond (i : ℕ)

def distinct (ips : List Units) : List Units := ips.reverse.dedup.reverse

def reach (clock : Units → ℤ) (s : Cache × Request) (ip : Units) : Cache × Request :=
  match Lru.get (clock ip) ip s.1 with
  | (some hit, cache) => (cache, { s.2 with names := assign ip hit s.2.names })
  | (none, cache) =>
      (cache, if s.2.todo.length < rdnsMaxPerRequest then { s.2 with todo := s.2.todo ++ [ip] }
        else { s.2 with pending := s.2.pending ++ [ip] })

def Rdns.lookup (r : Rdns) (ips : List Units) (clock : Units → ℤ) : Rdns :=
  if r.enabled then
    let s := (distinct ips).foldl (reach clock) (r.cache, .empty)
    { r with cache := s.1, requests := r.requests ++ [if s.2.todo = [] then s.2.respond else s.2] }
  else { r with requests := r.requests ++ [Request.empty.respond] }

def Rdns.settle (r : Rdns) (i : ℕ) (ip : Units) (outcome : Outcome) (now : ℤ) : Option Rdns :=
  r.requests[i]?.bind fun q =>
    if ip ∈ q.todo ∧ ip ∉ q.done then
      some { r with
        cache := outcome.answer?.elim r.cache fun name => Lru.set cacheSize ttlMs now ip name r.cache
        requests := r.requests.set i { q with names := assign ip outcome.name q.names, done := q.done ++ [ip] } }
    else none

def Rdns.timeout (r : Rdns) (i : ℕ) : Option Rdns :=
  r.requests[i]?.map fun q => { r with requests := r.requests.set i { q with fired := true } }

/-- All calls have ended, or the budget is over. -/
def Request.ready (q : Request) : Prop := q.response = none ∧ (q.fired = true ∨ ∀ ip ∈ q.todo, ip ∈ q.done)

instance (q : Request) : Decidable q.ready :=
  inferInstanceAs (Decidable (q.response = none ∧ (q.fired = true ∨ ∀ ip ∈ q.todo, ip ∈ q.done)))

def Rdns.respond (r : Rdns) (i : ℕ) : Option Rdns :=
  r.requests[i]?.bind fun q => if q.ready then some { r with requests := r.requests.set i q.respond } else none

def step (r : Rdns) : Event → Option Rdns
  | .lookup ips clock => some (r.lookup ips clock)
  | .settle i ip outcome now => r.settle i ip outcome now
  | .timeout i => r.timeout i
  | .respond i => r.respond i

def start : Rdns := ⟨true, .empty, []⟩

def Event.ops : Event → List (Lru.Op Units (Option Units))
  | .lookup ips clock => (distinct ips).map fun ip => .get ip (clock ip)
  | .settle _ ip outcome now => outcome.answer?.toList.map fun name => .set ip name now
  | .timeout _ | .respond _ => []

def Event.answer? (ip : Units) : Event → Option (Option Units × ℤ)
  | .settle _ j outcome now => if j = ip then outcome.answer?.map fun name => (name, now) else none
  | .lookup _ _ | .timeout _ | .respond _ => none

/-- The last success or no-such-name of an address, with its time. -/
def lastAnswer (ip : Units) (events : List Event) : Option (Option Units × ℤ) :=
  events.reverse.findSome? (Event.answer? ip)

def Event.opens : Event → Bool
  | .lookup _ _ => true
  | .settle _ _ _ _ | .timeout _ | .respond _ => false

section Cache

variable {ip : Units} {r t : Rdns} {q : Request} {es : List Event} {e : Event} {clock : Units → ℤ} {ips : List Units}

theorem mem_distinct : ip ∈ distinct ips ↔ ip ∈ ips := by
  rw [distinct, List.mem_reverse, List.mem_dedup, List.mem_reverse]

theorem nodup_distinct (ips : List Units) : (distinct ips).Nodup := List.nodup_reverse.mpr (List.nodup_dedup _)

theorem run_append (ops ops' : List (Lru.Op Units (Option Units))) :
    Lru.run cacheSize ttlMs (ops ++ ops') = ops'.foldl (Lru.step cacheSize ttlMs) (Lru.run cacheSize ttlMs ops) :=
  List.foldl_append

theorem reach_fst (s : Cache × Request) (ip : Units) : (reach clock s ip).1 = (Lru.get (clock ip) ip s.1).2 := by
  unfold reach
  split
  · rename_i heq
    rw [heq]
  · rename_i heq
    rw [heq]

theorem foldl_reach_fst (clock : Units → ℤ) (l : List Units) (s : Cache × Request) :
    (l.foldl (reach clock) s).1 = (l.map fun ip => Lru.Op.get ip (clock ip)).foldl (Lru.step cacheSize ttlMs) s.1 := by
  induction l generalizing s with
  | nil => rfl
  | cons ip l ih =>
      rw [List.foldl_cons, ih, reach_fst, List.map_cons, List.foldl_cons]
      rfl

theorem step_cache (h : step r e = some t) (hon : r.enabled = true) :
    t.enabled = true ∧ t.cache = e.ops.foldl (Lru.step cacheSize ttlMs) r.cache := by
  cases e with
  | lookup ips clock =>
      cases h
      rw [Rdns.lookup, if_pos hon]
      exact ⟨hon, foldl_reach_fst _ _ _⟩
  | settle i ip outcome now =>
      obtain ⟨q, -, h⟩ := Option.bind_eq_some_iff.mp h
      obtain ⟨-, h⟩ := Option.ite_none_right_eq_some.mp h
      cases h
      refine ⟨hon, ?_⟩
      rw [Event.ops]
      cases outcome.answer? <;> rfl
  | timeout i =>
      obtain ⟨q, -, rfl⟩ := Option.map_eq_some_iff.mp h
      exact ⟨hon, rfl⟩
  | respond i =>
      obtain ⟨q, -, h⟩ := Option.bind_eq_some_iff.mp h
      obtain ⟨-, h⟩ := Option.ite_none_right_eq_some.mp h
      cases h
      exact ⟨hon, rfl⟩

theorem step_requests (h : step r e = some t) :
    t.requests.length = r.requests.length + [e].countP Event.opens := by
  cases e with
  | lookup ips clock =>
      cases h
      unfold Rdns.lookup
      split <;> exact List.length_append
  | settle i ip outcome now =>
      obtain ⟨q, -, h⟩ := Option.bind_eq_some_iff.mp h
      obtain ⟨-, h⟩ := Option.ite_none_right_eq_some.mp h
      cases h
      exact List.length_set
  | timeout i =>
      obtain ⟨q, -, rfl⟩ := Option.map_eq_some_iff.mp h
      exact List.length_set
  | respond i =>
      obtain ⟨q, -, h⟩ := Option.bind_eq_some_iff.mp h
      obtain ⟨-, h⟩ := Option.ite_none_right_eq_some.mp h
      cases h
      exact List.length_set

theorem run_cache (h : exec step start es = some r) : r.enabled = true ∧
    r.cache = Lru.run cacheSize ttlMs (es.flatMap Event.ops) ∧ r.requests.length = es.countP Event.opens := by
  refine (Run.of_exec h).history (P := fun es r => r.enabled = true ∧ r.cache = Lru.run cacheSize ttlMs (es.flatMap Event.ops) ∧
    r.requests.length = es.countP Event.opens) ⟨rfl, rfl, rfl⟩ ?_
  rintro es t e u ⟨hon, hcache, hlen⟩ - hstep
  obtain ⟨hon', hcache'⟩ := step_cache hstep hon
  refine ⟨hon', ?_, ?_⟩
  · rw [hcache', hcache, List.flatMap_append, run_append, List.flatMap_singleton]
  · rw [step_requests hstep, hlen, List.countP_append]

theorem lastSet_gets (ops : List (Lru.Op Units (Option Units))) (l : List Units) :
    Lru.lastSet ip (ops ++ l.map fun j => .get j (clock j)) = Lru.lastSet ip ops := by
  induction l using List.reverseRecOn with
  | nil => rw [List.map_nil, List.append_nil]
  | append_singleton l j ih => rw [List.map_append, List.map_singleton, ← List.append_assoc, Lru.lastSet_get, ih]

theorem lastSet_ops (ip : Units) (events : List Event) : Lru.lastSet ip (events.flatMap Event.ops) = lastAnswer ip events := by
  induction events using List.reverseRecOn with
  | nil => rfl
  | append_singleton events e ih =>
      have hlast : lastAnswer ip (events ++ [e]) = (e.answer? ip).or (lastAnswer ip events) := by
        rw [lastAnswer, List.reverse_append, List.reverse_singleton, List.singleton_append, List.findSome?_cons]
        cases e.answer? ip <;> rfl
      rw [hlast, List.flatMap_append, List.flatMap_singleton]
      cases e with
      | lookup ips clock => rw [Event.ops, lastSet_gets, ih, Event.answer?, Option.none_or]
      | settle i j outcome now =>
          rw [Event.ops, Event.answer?]
          cases outcome.answer? with
          | none =>
              rw [Option.toList_none, List.map_nil, List.append_nil, ih]
              by_cases hj : j = ip <;> simp [hj]
          | some name =>
              rw [Option.toList_some, List.map_singleton, Lru.lastSet_set, ih]
              by_cases hj : j = ip <;> simp [hj]
      | timeout i => rw [Event.ops, List.append_nil, ih, Event.answer?, Option.none_or]
      | respond i => rw [Event.ops, List.append_nil, ih, Event.answer?, Option.none_or]

end Cache

/-- A name that may be reported without a call of the resolver. -/
abbrev Known := Units → Option Units → Prop

def Response.Fair (ips todo : List Units) (known : Known) (resp : Response) : Prop :=
  (resp.names.entries.map Prod.fst ++ resp.pending).Perm ips.dedup ∧
    ∀ ip name, resp.names.get? ip = some name → ip ∉ todo → known ip name

/-- The addresses of a request are named, waiting for the resolver, or put off. -/
structure Request.Fair (ips : List Units) (known : Known) (q : Request) : Prop where
  todo_le : q.todo.length ≤ rdnsMaxPerRequest
  todo_nodup : q.todo.Nodup
  pending_nodup : q.pending.Nodup
  apart : ∀ ip ∈ q.todo, ip ∉ q.pending
  asked : ∀ ip, ip ∈ q.todo ∨ ip ∈ q.pending → ip ∈ ips
  named : ∀ ip, ip ∈ q.names.entries.map Prod.fst ↔ ip ∈ ips ∧ ip ∉ q.pending ∧ (ip ∈ q.todo → ip ∈ q.done)
  cached : ∀ ip name, q.names.get? ip = some name → ip ∉ q.todo → known ip name
  response : ∀ resp, q.response = some resp → resp.Fair ips q.todo known

section Requests

variable {ip : Units} {name : Option Units} {names : Names} {ips seen : List Units} {known : Known} {q : Request}

theorem keys_assign (hip : ip ≠ proto) {j : Units} :
    j ∈ (assign ip name names).entries.map Prod.fst ↔ j = ip ∨ j ∈ names.entries.map Prod.fst := by
  rw [assign, if_neg hip, Dict.mem_keys, Dict.mem_keys]
  simp only [Dict.get?_insert]
  by_cases hj : j = ip <;> simp [hj]

theorem get?_assign (hip : ip ≠ proto) {j : Units} : (assign ip name names).get? j = if j = ip then some name else names.get? j := by
  rw [assign, if_neg hip, Dict.get?_insert]

theorem Request.Fair.empty (known : Known) : Request.Fair [] known .empty where
  todo_le := Nat.zero_le _
  todo_nodup := .nil
  pending_nodup := .nil
  apart := nofun
  asked := nofun
  named _ := iff_of_false nofun nofun
  cached := nofun
  response := nofun

theorem Request.Fair.hit (h : q.Fair seen known) (hresp : q.response = none) (hip : ip ≠ proto) (hnew : ip ∉ seen)
    (hname : known ip name) : Request.Fair (seen ++ [ip]) known { q with names := assign ip name q.names } where
  todo_le := h.todo_le
  todo_nodup := h.todo_nodup
  pending_nodup := h.pending_nodup
  apart := h.apart
  asked j hj := List.mem_append_left _ (h.asked j hj)
  named j := by
    rw [keys_assign hip, h.named, List.mem_append, List.mem_singleton]
    by_cases hj : j = ip
    · subst hj
      exact iff_of_true (.inl rfl)
        ⟨.inr rfl, fun hmem => hnew (h.asked _ (.inr hmem)), fun hmem => absurd (h.asked _ (.inl hmem)) hnew⟩
    · rw [or_iff_right hj, or_iff_left hj]
  cached j name' hget hj := by
    rw [get?_assign hip] at hget
    split at hget
    · rename_i heq
      subst heq
      cases hget
      exact hname
    · exact h.cached j name' hget hj
  response resp hget := absurd (hresp.symm.trans hget) nofun

theorem Request.Fair.ask (h : q.Fair seen known) (hresp : q.response = none) (hdone : q.done = []) (hnew : ip ∉ seen)
    (hroom : q.todo.length < rdnsMaxPerRequest) : Request.Fair (seen ++ [ip]) known { q with todo := q.todo ++ [ip] } where
  todo_le := by
    rw [List.length_append]
    exact hroom
  todo_nodup := List.nodup_append.mpr ⟨h.todo_nodup, List.nodup_singleton ip, by
    rintro a ha b hb rfl
    cases List.mem_singleton.mp hb
    exact hnew (h.asked ip (.inl ha))⟩
  pending_nodup := h.pending_nodup
  apart j hj hpending := by
    obtain hj | hj := List.mem_append.mp hj
    · exact h.apart j hj hpending
    · exact hnew (List.mem_singleton.mp hj ▸ h.asked j (.inr hpending))
  asked j hj := by
    rw [List.mem_append, or_right_comm] at hj
    exact List.mem_append.mpr (hj.imp_left (h.asked j))
  named j := by
    rw [h.named, hdone, List.mem_append, List.mem_append, List.mem_singleton]
    by_cases hj : j = ip
    · subst hj
      exact iff_of_false (fun hmem => hnew hmem.1) fun hmem => List.not_mem_nil (hmem.2.2 (.inr rfl))
    · rw [or_iff_left hj, or_iff_left hj]
  cached j name' hget hj := h.cached j name' hget fun hmem => hj (List.mem_append_left _ hmem)
  response resp hget := absurd (hresp.symm.trans hget) nofun

theorem Request.Fair.putOff (h : q.Fair seen known) (hresp : q.response = none) (hnew : ip ∉ seen) :
    Request.Fair (seen ++ [ip]) known { q with pending := q.pending ++ [ip] } where
  todo_le := h.todo_le
  todo_nodup := h.todo_nodup
  pending_nodup := List.nodup_append.mpr ⟨h.pending_nodup, List.nodup_singleton ip, by
    rintro a ha b hb rfl
    cases List.mem_singleton.mp hb
    exact hnew (h.asked ip (.inr ha))⟩
  apart j hj hpending := by
    obtain hpending | hpending := List.mem_append.mp hpending
    · exact h.apart j hj hpending
    · exact hnew (List.mem_singleton.mp hpending ▸ h.asked j (.inl hj))
  asked j hj := by
    rw [List.mem_append, ← or_assoc] at hj
    exact List.mem_append.mpr (hj.imp_left (h.asked j))
  named j := by
    rw [h.named, List.mem_append, List.mem_append, List.mem_singleton]
    by_cases hj : j = ip
    · subst hj
      exact iff_of_false (fun hmem => hnew hmem.1) fun hmem => hmem.2.1 (.inr rfl)
    · rw [or_iff_left hj, or_iff_left hj]
  cached := h.cached
  response resp hget := absurd (hresp.symm.trans hget) nofun

theorem Request.Fair.settle (h : q.Fair ips known) (hip : ip ≠ proto) (hmem : ip ∈ q.todo) :
    Request.Fair ips known { q with names := assign ip name q.names, done := q.done ++ [ip] } where
  todo_le := h.todo_le
  todo_nodup := h.todo_nodup
  pending_nodup := h.pending_nodup
  apart := h.apart
  asked := h.asked
  named j := by
    rw [keys_assign hip, h.named, List.mem_append, List.mem_singleton]
    by_cases hj : j = ip
    · subst hj
      exact iff_of_true (.inl rfl) ⟨h.asked _ (.inl hmem), h.apart _ hmem, fun _ => .inr rfl⟩
    · rw [or_iff_right hj, or_iff_left hj]
  cached j name' hget hj := by
    rw [get?_assign hip] at hget
    split at hget
    · rename_i heq
      exact absurd (heq ▸ hmem) hj
    · exact h.cached j name' hget hj
  response := h.response

theorem Request.Fair.respond (h : q.Fair ips known) : q.respond.Fair ips known where
  todo_le := h.todo_le
  todo_nodup := h.todo_nodup
  pending_nodup := h.pending_nodup
  apart := h.apart
  asked := h.asked
  named := h.named
  cached := h.cached
  response resp hget := by
    cases hget
    have hwaiting : ∀ {j}, j ∈ q.todo.filter (· ∉ q.done) ↔ j ∈ q.todo ∧ j ∉ q.done := by
      intro j
      rw [List.mem_filter, decide_eq_true_iff]
    refine ⟨(List.perm_ext_iff_of_nodup ?_ (List.nodup_dedup ips)).mpr fun j => ?_, h.cached⟩
    · refine List.nodup_append.mpr ⟨q.names.nodup, List.nodup_append.mpr ⟨h.pending_nodup, h.todo_nodup.filter _, ?_⟩, ?_⟩
      · rintro a ha b hb rfl
        exact h.apart a (hwaiting.mp hb).1 ha
      · rintro a ha b hb rfl
        have hnamed := (h.named a).mp ha
        obtain hb | hb := List.mem_append.mp hb
        · exact hnamed.2.1 hb
        · exact (hwaiting.mp hb).2 (hnamed.2.2 (hwaiting.mp hb).1)
    · rw [List.mem_append, List.mem_append, h.named, hwaiting, List.mem_dedup]
      have hasked := h.asked j
      tauto

end Requests

section Answers

variable {ips : List Units} {known : Known} {clock : Units → ℤ} {ops : List (Lru.Op Units (Option Units))}
  {r t u : Rdns} {e : Event} {i : ℕ} {es fs : List Event}

def cachedAt (ops : List (Lru.Op Units (Option Units))) (clock : Units → ℤ) : Known := fun ip name =>
  ∃ t, Lru.lastSet ip ops = some (name, t) ∧ clock ip - t < ttlMs

theorem fair_reach (ops : List (Lru.Op Units (Option Units))) (clock : Units → ℤ) (l : List Units) (hl : l.Nodup) (hproto : proto ∉ l) :
    let q := (l.foldl (reach clock) (Lru.run cacheSize ttlMs ops, .empty)).2
    q.Fair l (cachedAt ops clock) ∧ q.done = [] ∧ q.response = none := by
  induction l using List.reverseRecOn with
  | nil => exact ⟨.empty _, rfl, rfl⟩
  | append_singleton l ip ih =>
      have hnew : ip ∉ l := fun hmem => (List.nodup_append.mp hl).2.2 ip hmem ip (List.mem_singleton_self ip) rfl
      have hip : ip ≠ proto := fun heq => hproto (List.mem_append_right l (List.mem_singleton.mpr heq.symm))
      obtain ⟨hfair, hdone, hresp⟩ := ih (List.nodup_append.mp hl).1 fun hmem => hproto (List.mem_append_left _ hmem)
      have hcache := foldl_reach_fst clock l (Lru.run cacheSize ttlMs ops, .empty)
      rw [← run_append] at hcache
      rw [List.foldl_append, List.foldl_cons, List.foldl_nil]
      generalize l.foldl (reach clock) (Lru.run cacheSize ttlMs ops, .empty) = s at hfair hdone hresp hcache
      dsimp only at hcache ⊢
      unfold reach
      split
      · rename_i hit cache heq
        obtain ⟨t, ht, hyoung⟩ := Lru.get_lastSet (hcache ▸ congrArg Prod.fst heq)
        rw [lastSet_gets] at ht
        exact ⟨hfair.hit hresp hip hnew ⟨t, ht, hyoung⟩, hdone, hresp⟩
      · dsimp only
        split
        · rename_i hroom
          exact ⟨hfair.ask hresp hdone hnew hroom, hdone, hresp⟩
        · exact ⟨hfair.putOff hresp hnew, hdone, hresp⟩

theorem Request.Fair.of_mem {l l' : List Units} {q : Request} (h : q.Fair l known) (hl : ∀ ip, ip ∈ l ↔ ip ∈ l') :
    q.Fair l' known where
  todo_le := h.todo_le
  todo_nodup := h.todo_nodup
  pending_nodup := h.pending_nodup
  apart := h.apart
  asked ip hip := (hl ip).mp (h.asked ip hip)
  named ip := (h.named ip).trans (and_congr_left' (hl ip))
  cached := h.cached
  response resp hget := by
    have hperm : l.dedup.Perm l'.dedup := by
      apply (List.perm_ext_iff_of_nodup (List.nodup_dedup l) (List.nodup_dedup l')).mpr
      intro ip
      rw [List.mem_dedup, List.mem_dedup, hl]
    obtain ⟨hkeys, hknown⟩ := h.response resp hget
    exact ⟨hkeys.trans hperm, hknown⟩

theorem fair_lookup (hon : r.enabled = true) (hcache : r.cache = Lru.run cacheSize ttlMs ops) (hproto : proto ∉ ips) :
    ∃ q, (r.lookup ips clock).requests[r.requests.length]? = some q ∧ q.Fair ips (cachedAt ops clock) := by
  obtain ⟨hfair, -, -⟩ := fair_reach ops clock (distinct ips) (nodup_distinct ips)
    fun hmem => hproto (mem_distinct.mp hmem)
  rw [Rdns.lookup, if_pos hon, hcache]
  refine ⟨_, List.getElem?_concat_length, Request.Fair.of_mem ?_ fun ip => mem_distinct⟩
  split
  · exact hfair.respond
  · exact hfair

/-- Whatever happens afterwards, a request stays fair. -/
theorem fair_step {q : Request} (hget : r.requests[i]? = some q) (hfair : q.Fair ips known) (hproto : proto ∉ ips)
    (h : step r e = some t) : ∃ q', t.requests[i]? = some q' ∧ q'.Fair ips known := by
  have hset : ∀ {j p p'}, r.requests[j]? = some p → (p.Fair ips known → p'.Fair ips known) →
      ∃ q', (r.requests.set j p')[i]? = some q' ∧ q'.Fair ips known := by
    intro j p p' hp hkeep
    by_cases hj : j = i
    · subst hj
      cases hget.symm.trans hp
      exact ⟨p', List.getElem?_set_self (List.getElem?_eq_some_iff.mp hget).1, hkeep hfair⟩
    · exact ⟨q, by rw [List.getElem?_set_ne hj, hget], hfair⟩
  cases e with
  | lookup ips' clock =>
      cases h
      have happend : ∀ p, (r.requests ++ [p])[i]? = some q := fun p =>
        (List.getElem?_append_left (List.getElem?_eq_some_iff.mp hget).1).trans hget
      unfold Rdns.lookup
      split <;> exact ⟨q, happend _, hfair⟩
  | settle j ip outcome now =>
      obtain ⟨p, hp, h⟩ := Option.bind_eq_some_iff.mp h
      obtain ⟨⟨hmem, -⟩, h⟩ := Option.ite_none_right_eq_some.mp h
      cases h
      exact hset hp fun hp => hp.settle (fun heq => hproto (heq ▸ hp.asked ip (.inl hmem))) hmem
  | timeout j =>
      obtain ⟨p, hp, rfl⟩ := Option.map_eq_some_iff.mp h
      exact hset hp fun hp => ⟨hp.todo_le, hp.todo_nodup, hp.pending_nodup, hp.apart, hp.asked, hp.named, hp.cached, hp.response⟩
  | respond j =>
      obtain ⟨p, hp, h⟩ := Option.bind_eq_some_iff.mp h
      obtain ⟨-, h⟩ := Option.ite_none_right_eq_some.mp h
      cases h
      exact hset hp fun hp => hp.respond

theorem fair_run (hproto : proto ∉ ips) (h : exec step start (es ++ .lookup ips clock :: fs) = some r) :
    ∃ q, r.requests[es.countP Event.opens]? = some q ∧ q.Fair ips (cachedAt (es.flatMap Event.ops) clock) := by
  obtain ⟨t, ht, hrest⟩ := exec_append h
  obtain ⟨u, hu, hrest⟩ := Option.bind_eq_some_iff.mp hrest
  obtain ⟨hon, hcache, hlen⟩ := run_cache ht
  cases hu
  rw [← hlen]
  refine (Run.of_exec hrest).invariant
    (I := fun r => ∃ q, r.requests[t.requests.length]? = some q ∧ q.Fair ips (cachedAt (es.flatMap Event.ops) clock))
    (fair_lookup hon hcache hproto) ?_
  rintro s e s' ⟨q, hget, hfair⟩ - hstep
  exact fair_step hget hfair hproto hstep

theorem settle_failed {ip : Units} {outcome : Outcome} {now : ℤ} (h : step r (.settle i ip outcome now) = some t)
    (hfailed : outcome.answer? = none) : t.cache = r.cache := by
  obtain ⟨q, -, h⟩ := Option.bind_eq_some_iff.mp h
  obtain ⟨-, h⟩ := Option.ite_none_right_eq_some.mp h
  cases h
  rw [hfailed]
  rfl

/-- Each response names or puts off every address of its request once, with at most twenty calls
of the resolver; what the cache gives is the last answer, less than an hour old, and it gives up
such an answer only for those of 10000 other addresses. -/
theorem lookup_partition (events : List Event) (h : exec step start events = some r) :
    (∀ es ips clock fs, events = es ++ .lookup ips clock :: fs → proto ∉ ips →
      ∃ q, r.requests[es.countP Event.opens]? = some q ∧ q.todo.length ≤ 20 ∧
        ∀ resp, q.response = some resp →
          (resp.names.entries.map Prod.fst ++ resp.pending).Perm ips.dedup ∧
          ∀ ip name, resp.names.get? ip = some name → ip ∉ q.todo →
            ∃ t, lastAnswer ip es = some (name, t) ∧ clock ip - t < 3600000) ∧
    (∀ i ip outcome now t, step r (.settle i ip outcome now) = some t → outcome.answer? = none → t.cache = r.cache) ∧
    r.cache = Lru.run cacheSize ttlMs (events.flatMap Event.ops) ∧ r.cache.entries.length ≤ 10000 ∧
    ∀ ops op rest, events.flatMap Event.ops = ops ++ op :: rest →
      ∀ ip e, (Lru.run cacheSize ttlMs ops).get? ip = some e → (Lru.run cacheSize ttlMs (ops ++ [op])).get? ip = none →
        op.now < e.exp → 10000 ≤ (Lru.since ip (Lru.trace cacheSize ttlMs (ops ++ [op])).2).dedup.length := by
  obtain ⟨-, hcache, -⟩ := run_cache h
  refine ⟨?_, fun i ip outcome now t => settle_failed, hcache, ?_, ?_⟩
  · rintro es ips clock fs rfl hproto
    obtain ⟨q, hget, hfair⟩ := fair_run hproto h
    refine ⟨q, hget, hfair.todo_le, fun resp hresp => ?_⟩
    obtain ⟨hkeys, hknown⟩ := hfair.response resp hresp
    refine ⟨hkeys, fun ip name hname htodo => ?_⟩
    rw [← lastSet_ops]
    exact hknown ip name hname htodo
  · rw [hcache]
    exact Lru.length_run _
  · intro ops op rest _ ip e hget hgone hexp
    exact Lru.dropped hget hgone hexp

def asked : List Event :=
  [.lookup [units "1.1.1.1", units "::1"] fun _ => 0, .settle 0 (units "1.1.1.1") (.hosts [units "one.example"]) 5,
    .settle 0 (units "::1") (.failed "ETIMEOUT") 6, .respond 0]

theorem lookup_partition_again : ∃ r, exec step start (asked ++ [.lookup [units "1.1.1.1"] fun _ => 10]) = some r ∧
    ∃ q resp, r.requests[1]? = some q ∧ q.response = some resp ∧
      (resp.names.entries.map Prod.fst ++ resp.pending).Perm [units "1.1.1.1"] ∧
      resp.names.get? (units "1.1.1.1") = some (some (units "one.example")) ∧
      ∃ t, lastAnswer (units "1.1.1.1") asked = some (some (units "one.example"), t) ∧ 10 - t < 3600000 := by
  refine ⟨_, rfl, ?_⟩
  obtain ⟨q, hget, -, hresp⟩ := (lookup_partition (asked ++ [.lookup [units "1.1.1.1"] fun _ => 10]) rfl).1 asked
    [units "1.1.1.1"] (fun _ => 10) [] rfl (by decide)
  cases hget
  obtain ⟨hkeys, hknown⟩ := hresp _ rfl
  exact ⟨_, _, rfl, rfl, hkeys, rfl, hknown _ _ rfl List.not_mem_nil⟩

end Answers

end NetWatch.GeoIp.ReverseDns
