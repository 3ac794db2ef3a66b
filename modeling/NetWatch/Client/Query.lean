import NetWatch.Lib.Recent
import NetWatch.Lib.Runs

namespace NetWatch.Client.Query

open Lib Lib.Assoc Lib.Runs

variable {Url D R : Type} [DecidableEq Url]

def maxCached : ℕ := 50

def remember (url : Url) (data : D) (cache : Dict Url D) : Dict Url D := Recent.put maxCached url data cache

structure State (Url D : Type) where
  url : Option Url
  data : Option D
  error : Option String
  loading : Bool

/-- A mounted use of the hook: its arguments, its state, the dependencies with which
its fetching effect ran last, the request which the cleanup of that effect aborts, and
the value that `refreshOn` had when the other effect ran last. -/
structure Hook (Url D R : Type) where
  url : Option Url
  refreshOn : Option R
  state : State Url D
  nonce : ℕ
  ran : Option (Option Url × ℕ)
  ctrl : Option ℕ
  seen : Option R

structure Request (Url D : Type) where
  owner : ℕ
  url : Url
  aborted : Bool
  outcome : Option (Except String D)

structure Answer (Url D : Type) where
  owner : ℕ
  url : Url
  data : D

/-- A tab: the cache is shared by all uses of the hook. -/
structure Tab (Url D R : Type) where
  cache : Dict Url D
  hooks : Dict ℕ (Hook Url D R)
  mounts : ℕ
  requests : Dict ℕ (Request Url D)
  sent : ℕ
  answers : List (Answer Url D)

def Tab.start : Tab Url D R := ⟨.empty, .empty, 0, .empty, 0, []⟩

inductive Event (Url D R : Type)
  | mount (url : Option Url) (refreshOn : Option R)
  | render (h : ℕ) (url : Option Url) (refreshOn : Option R)
  | effects (h : ℕ)
  | reload (h : ℕ)
  | unmount (h : ℕ)
  | answer (i : ℕ) (data : D)
  | refuse (i : ℕ) (message : String)
  | callBack (i : ℕ)

structure QueryState (D : Type) where
  data : Option D
  error : Option String
  loading : Bool
  stale : Bool
  deriving DecidableEq

/-- The effect that refetches when `refreshOn` changes to a different value. -/
def Hook.refreshEffect [DecidableEq R] (k : Hook Url D R) : Hook Url D R :=
  { k with
    seen := k.refreshOn
    nonce := if k.seen.isSome && decide (k.seen ≠ k.refreshOn) then k.nonce + 1 else k.nonce }

def Hook.view (k : Hook Url D R) : QueryState D :=
  let fresh := k.state.url = k.url && !k.state.loading
  ⟨k.state.data, k.state.error, k.state.loading, !fresh && k.state.data.isSome⟩

namespace Tab

def mount (url : Option Url) (refreshOn : Option R) (w : Tab Url D R) : Tab Url D R :=
  let state := ⟨url, url.bind w.cache.get?, none, url.isSome⟩
  { w with
    hooks := w.hooks.insert w.mounts ⟨url, refreshOn, state, 0, none, none, refreshOn⟩
    mounts := w.mounts + 1 }

def abort (i : ℕ) (w : Tab Url D R) : Tab Url D R :=
  { w with requests := w.requests.mapVals fun j r => if j = i then { r with aborted := true } else r }

def cleanup (k : Hook Url D R) (w : Tab Url D R) : Tab Url D R :=
  match k.ctrl with
  | some i => w.abort i
  | none => w

def fetchEffect (h : ℕ) (k : Hook Url D R) (w : Tab Url D R) : Tab Url D R :=
  let w := w.cleanup k
  match k.url with
  | none =>
      let hook := { k with state := ⟨none, none, none, false⟩, ran := some (none, k.nonce), ctrl := none }
      { w with hooks := w.hooks.insert h hook }
  | some url =>
      let state := ⟨some url, (w.cache.get? url).or k.state.data, none, true⟩
      let hook := { k with state := state, ran := some (some url, k.nonce), ctrl := some w.sent }
      { w with
        hooks := w.hooks.insert h hook
        requests := w.requests.insert w.sent ⟨h, url, false, none⟩
        sent := w.sent + 1 }

def modify (h : ℕ) (f : Hook Url D R → Hook Url D R) (w : Tab Url D R) : Tab Url D R :=
  match w.hooks.get? h with
  | some k => { w with hooks := w.hooks.insert h (f k) }
  | none => w

def effects [DecidableEq R] (h : ℕ) (w : Tab Url D R) : Tab Url D R :=
  match w.hooks.get? h with
  | some k => modify h Hook.refreshEffect (if k.ran = some (k.url, k.nonce) then w else w.fetchEffect h k)
  | none => w

def unmount (h : ℕ) (w : Tab Url D R) : Tab Url D R :=
  match w.hooks.get? h with
  | some k => { w.cleanup k with hooks := w.hooks.filter fun j _ => j ≠ h }
  | none => w

def callBack (i : ℕ) (r : Request Url D) (outcome : Except String D) (w : Tab Url D R) : Tab Url D R :=
  let w := { w with requests := w.requests.filter fun j _ => j ≠ i }
  match outcome with
  | .ok data =>
      modify r.owner (fun k => { k with state := ⟨some r.url, some data, none, false⟩ })
        { w with cache := remember r.url data w.cache, answers := w.answers ++ [⟨r.owner, r.url, data⟩] }
  | .error message =>
      if r.aborted then w
      else modify r.owner (fun k => { k with state := { k.state with error := some message, loading := false } }) w

/-- The effects of a render have run before the next one. -/
def step [DecidableEq R] (w : Tab Url D R) : Event Url D R → Option (Tab Url D R)
  | .mount url refreshOn => some (w.mount url refreshOn)
  | .render h url refreshOn =>
      some (modify h (fun k => { k with url := url, refreshOn := refreshOn }) (w.effects h))
  | .effects h => some (w.effects h)
  | .reload h => some (modify h (fun k => { k with nonce := k.nonce + 1 }) w)
  | .unmount h => some (w.unmount h)
  | .answer i data =>
      match w.requests.get? i with
      -- An aborted request can only fail, unless its body is already there.
      | some ⟨owner, url, false, none⟩ =>
          some { w with requests := w.requests.insert i ⟨owner, url, false, some (.ok data)⟩ }
      | _ => none
  | .refuse i message =>
      match w.requests.get? i with
      | some ⟨owner, url, aborted, none⟩ =>
          some { w with requests := w.requests.insert i ⟨owner, url, aborted, some (.error message)⟩ }
      | _ => none
  | .callBack i =>
      match w.requests.get? i with
      | some ⟨owner, url, aborted, some outcome⟩ => some (w.callBack i ⟨owner, url, aborted, some outcome⟩ outcome)
      | _ => none

end Tab

def Tab.Live (w : Tab Url D R) (i : ℕ) (r : Request Url D) : Prop := w.requests.get? i = some r ∧ r.aborted = false

structure Hook.Good (w : Tab Url D R) (h : ℕ) (k : Hook Url D R) : Prop where
  received : ∀ d, k.state.data = some d → ∃ a ∈ w.answers, a.data = d
  shown : ∀ d, k.state.data = some d → k.state.error = none → k.state.loading = false →
    ∃ u, k.state.url = some u ∧ ⟨h, u, d⟩ ∈ w.answers
  loading : k.state.loading = true → k.ran = none ∨ ∃ i r, w.Live i r ∧ r.owner = h ∧ k.state.url = some r.url
  ctrl : ∀ i, k.ctrl = some i → i < w.sent ∧ ∀ r, w.requests.get? i = some r → r.owner = h

structure Good (w : Tab Url D R) : Prop where
  hook : ∀ h k, w.hooks.get? h = some k → k.Good w h ∧ h < w.mounts
  owned : ∀ i r, w.Live i r → ∃ k, w.hooks.get? r.owner = some k ∧ k.ctrl = some i ∧ ∃ n, k.ran = some (some r.url, n)
  sent : ∀ i r, w.requests.get? i = some r → i < w.sent
  cached : w.cache = Recent.puts maxCached (w.answers.map fun a => (a.url, a.data))

section Steps

variable {w w' : Tab Url D R} {h i : ℕ} {k k' : Hook Url D R} {r : Request Url D} {f : Hook Url D R → Hook Url D R}

theorem Good.mem_cache (hw : Good w) {u : Url} {d : D} (hget : w.cache.get? u = some d) : ∃ a ∈ w.answers, a.data = d := by
  rw [hw.cached] at hget
  obtain ⟨a, ha, heq⟩ := List.mem_map.mp (Recent.mem_puts hget)
  exact ⟨a, ha, congrArg Prod.snd heq⟩

omit [DecidableEq Url] in
theorem Hook.Good.mono (hk : k.Good w h) (hanswers : ∀ a ∈ w.answers, a ∈ w'.answers) (hsent : w.sent ≤ w'.sent)
    (hlive : ∀ j s, w.Live j s → s.owner = h → ∃ s', w'.Live j s' ∧ s'.owner = h ∧ s'.url = s.url)
    (howner : ∀ j s, j < w.sent → w'.requests.get? j = some s → ∃ s', w.requests.get? j = some s' ∧ s'.owner = s.owner) :
    k.Good w' h where
  received d hd := by
    obtain ⟨a, ha, heq⟩ := hk.received d hd
    exact ⟨a, hanswers a ha, heq⟩
  shown d hd herror hloading := by
    obtain ⟨u, hu, hmem⟩ := hk.shown d hd herror hloading
    exact ⟨u, hu, hanswers _ hmem⟩
  loading hloading := by
    obtain hran | ⟨j, s, hs, hsh, hurl⟩ := hk.loading hloading
    · exact .inl hran
    · obtain ⟨s', hs', howner', hurl'⟩ := hlive j s hs hsh
      exact .inr ⟨j, s', hs', howner', by rw [hurl, hurl']⟩
  ctrl j hj := by
    obtain ⟨hlt, hown⟩ := hk.ctrl j hj
    refine ⟨lt_of_lt_of_le hlt hsent, fun s hs => ?_⟩
    obtain ⟨s', hs', heq⟩ := howner j s hlt hs
    exact heq ▸ hown s' hs'

theorem good_modify (hw : Good w) (hstate : ∀ k, (f k).state = k.state) (hran : ∀ k, (f k).ran = k.ran)
    (hctrl : ∀ k, (f k).ctrl = k.ctrl) : Good (w.modify h f) := by
  rw [Tab.modify]
  cases hget : w.hooks.get? h with
  | none => exact hw
  | some k =>
      constructor
      · intro h' k' hk'
        rw [Dict.get?_insert] at hk'
        split at hk'
        · rename_i heq
          subst heq
          cases hk'
          obtain ⟨⟨hreceived, hshown, hloading, howner⟩, hlt⟩ := hw.hook _ k hget
          refine ⟨⟨?_, ?_, ?_, ?_⟩, hlt⟩
          · rw [hstate]
            exact hreceived
          · rw [hstate]
            exact hshown
          · rw [hstate, hran]
            exact hloading
          · rw [hctrl]
            exact howner
        · obtain ⟨hgood, hlt⟩ := hw.hook h' k' hk'
          exact ⟨⟨hgood.received, hgood.shown, hgood.loading, hgood.ctrl⟩, hlt⟩
      · intro i r hr
        obtain ⟨k', hk', hki, n, hn⟩ := hw.owned i r hr
        by_cases heq : r.owner = h
        · refine ⟨f k, by simp [heq], ?_, n, ?_⟩
          · rw [heq, hget] at hk'
            cases hk'
            rw [hctrl, hki]
          · rw [heq, hget] at hk'
            cases hk'
            rw [hran, hn]
        · exact ⟨k', by simp [heq, hk'], hki, n, hn⟩
      · exact hw.sent
      · exact hw.cached

theorem good_mount (hw : Good w) (url : Option Url) (refreshOn : Option R) : Good (w.mount url refreshOn) := by
  have hfresh : ∀ {h k}, w.hooks.get? h = some k → h ≠ w.mounts := fun hget => Nat.ne_of_lt (hw.hook _ _ hget).2
  constructor
  · intro h k hk
    rw [Tab.mount, Dict.get?_insert] at hk
    split at hk
    · rename_i heq
      cases hk
      refine ⟨⟨?_, ?_, fun _ => .inl rfl, fun i hi => by cases hi⟩, by rw [heq]; exact Nat.lt_succ_self _⟩
      · intro d hd
        obtain ⟨u, -, hu⟩ := Option.bind_eq_some_iff.mp hd
        exact hw.mem_cache hu
      · intro d hd _ hloading
        obtain ⟨u, hu, -⟩ := Option.bind_eq_some_iff.mp hd
        subst hu
        cases hloading
    · obtain ⟨hgood, hlt⟩ := hw.hook h k hk
      exact ⟨⟨hgood.received, hgood.shown, hgood.loading, hgood.ctrl⟩, Nat.lt_succ_of_lt hlt⟩
  · intro i r hr
    obtain ⟨k, hk, hrest⟩ := hw.owned i r hr
    refine ⟨k, ?_, hrest⟩
    rw [Tab.mount, Dict.get?_insert, if_neg (hfresh hk), hk]
  · exact hw.sent
  · exact hw.cached

omit [DecidableEq Url] in
theorem cleanup_frame (k : Hook Url D R) (w : Tab Url D R) : (w.cleanup k).cache = w.cache ∧ (w.cleanup k).hooks = w.hooks ∧
    (w.cleanup k).mounts = w.mounts ∧ (w.cleanup k).sent = w.sent ∧ (w.cleanup k).answers = w.answers := by
  rw [Tab.cleanup]
  split <;> exact ⟨rfl, rfl, rfl, rfl, rfl⟩

omit [DecidableEq Url] in
theorem requests_cleanup (k : Hook Url D R) (w : Tab Url D R) (i : ℕ) : (w.cleanup k).requests.get? i =
    (w.requests.get? i).map fun r => if k.ctrl = some i then { r with aborted := true } else r := by
  rw [Tab.cleanup]
  cases hctrl : k.ctrl with
  | none => simp
  | some j =>
      simp only [Tab.abort, Dict.get?_mapVals]
      congr 1
      funext r
      simp only [Option.some.injEq, eq_comm]

/-- The cleanup of a use aborts its only live request and no other one. -/
theorem live_cleanup (hw : Good w) (hk : w.hooks.get? h = some k) : (w.cleanup k).Live i r ↔ w.Live i r ∧ r.owner ≠ h := by
  rw [Tab.Live, Tab.Live, requests_cleanup]
  constructor
  · rintro ⟨hr, haborted⟩
    obtain ⟨s, hs, heq⟩ := Option.map_eq_some_iff.mp hr
    split at heq
    · subst heq
      cases haborted
    · rename_i hctrl
      subst heq
      refine ⟨⟨hs, haborted⟩, fun howner => hctrl ?_⟩
      obtain ⟨k', hk', hki, -⟩ := hw.owned i s ⟨hs, haborted⟩
      rw [howner, hk] at hk'
      cases hk'
      exact hki
  · rintro ⟨⟨hr, haborted⟩, howner⟩
    have hctrl : k.ctrl ≠ some i := fun hki => howner (((hw.hook h k hk).1.ctrl i hki).2 r hr)
    rw [hr, Option.map_some, if_neg hctrl]
    exact ⟨rfl, haborted⟩

theorem good_cleanup (hw : Good w) (hk : w.hooks.get? h = some k) {h' : ℕ} {k' : Hook Url D R} (hne : h' ≠ h)
    (hk' : w.hooks.get? h' = some k') : k'.Good (w.cleanup k) h' := by
  obtain ⟨-, -, -, hsent, hanswers⟩ := cleanup_frame k w
  refine (hw.hook h' k' hk').1.mono (by rw [hanswers]; exact fun a ha => ha) hsent.ge ?_ ?_
  · intro j s hs howner
    refine ⟨s, (live_cleanup hw hk).mpr ⟨hs, ?_⟩, howner, rfl⟩
    rw [howner]
    exact hne
  · intro j s _ hs
    rw [requests_cleanup] at hs
    obtain ⟨s', hs', heq⟩ := Option.map_eq_some_iff.mp hs
    refine ⟨s', hs', ?_⟩
    split at heq <;> rw [← heq]

theorem good_unmount (hw : Good w) (h : ℕ) : Good (w.unmount h) := by
  rw [Tab.unmount]
  cases hk : w.hooks.get? h with
  | none => exact hw
  | some k =>
      obtain ⟨hcache, -, hmounts, hsent, hanswers⟩ := cleanup_frame k w
      constructor
      · intro h' k' hk'
        rw [Dict.get?_filter, Option.filter_eq_some_iff, decide_eq_true_iff] at hk'
        obtain ⟨hgood, hlt⟩ := hw.hook h' k' hk'.1
        have hother := good_cleanup hw hk hk'.2 hk'.1
        exact ⟨⟨hother.received, hother.shown, hother.loading, hother.ctrl⟩, hmounts ▸ hlt⟩
      · intro i r hr
        obtain ⟨hlive, howner⟩ := (live_cleanup hw hk).mp hr
        obtain ⟨k', hk', hrest⟩ := hw.owned i r hlive
        exact ⟨k', by simp [hk', howner], hrest⟩
      · intro i r hr
        rw [requests_cleanup] at hr
        obtain ⟨s, hs, -⟩ := Option.map_eq_some_iff.mp hr
        exact hsent ▸ hw.sent i s hs
      · change (w.cleanup k).cache = Recent.puts maxCached ((w.cleanup k).answers.map _)
        rw [hcache, hanswers]
        exact hw.cached

theorem good_fetchEffect (hw : Good w) (hk : w.hooks.get? h = some k) : Good (w.fetchEffect h k) := by
  obtain ⟨hcache, hhooks, hmounts, hsent, hanswers⟩ := cleanup_frame k w
  have hothers : ∀ {h' k'}, h' ≠ h → w.hooks.get? h' = some k' → Hook.Good (w.cleanup k) h' k' := good_cleanup hw hk
  have hlive := fun {i r} => live_cleanup (i := i) (r := r) hw hk
  have hbound : ∀ {i r}, (w.cleanup k).requests.get? i = some r → i < w.sent := by
    intro i r hr
    rw [requests_cleanup] at hr
    obtain ⟨s, hs, -⟩ := Option.map_eq_some_iff.mp hr
    exact hw.sent i s hs
  have hmount := (hw.hook h k hk).2
  have hcached : (w.cleanup k).cache = Recent.puts maxCached ((w.cleanup k).answers.map fun a => (a.url, a.data)) := by
    rw [hcache, hanswers]
    exact hw.cached
  have hdata : ∀ {u d}, ((w.cleanup k).cache.get? u).or k.state.data = some d → ∃ a ∈ (w.cleanup k).answers, a.data = d := by
    intro u d hd
    rw [hanswers]
    rw [hcache] at hd
    obtain hd | ⟨-, hd⟩ := Option.or_eq_some_iff.mp hd
    · exact hw.mem_cache hd
    · exact (hw.hook h k hk).1.received d hd
  rw [Tab.fetchEffect]
  cases hurl : k.url with
  | none =>
      constructor
      · intro h' k' hk'
        rw [hhooks, Dict.get?_insert] at hk'
        split at hk'
        · rename_i heq
          subst heq
          cases hk'
          exact ⟨⟨by simp, by simp, by simp, by simp⟩, hmounts ▸ hmount⟩
        · rename_i hne
          obtain ⟨hreceived, hshown, hloading, hctrl⟩ := hothers hne hk'
          exact ⟨⟨hreceived, hshown, hloading, hctrl⟩, hmounts ▸ (hw.hook h' k' hk').2⟩
      · intro i r hr
        obtain ⟨hlive', howner⟩ := hlive.mp hr
        obtain ⟨k', hk', hrest⟩ := hw.owned i r hlive'
        exact ⟨k', by simp [hhooks, hk', howner], hrest⟩
      · intro i r hr
        exact hsent ▸ hbound hr
      · exact hcached
  | some url =>
      have hkeep : ∀ {i r}, (w.cleanup k).requests.get? i = some r →
          ((w.cleanup k).requests.insert (w.cleanup k).sent ⟨h, url, false, none⟩).get? i = some r := by
        intro i r hr
        rw [Dict.get?_insert, if_neg, hr]
        rw [hsent]
        exact Nat.ne_of_lt (hbound hr)
      constructor
      · intro h' k' hk'
        rw [hhooks, Dict.get?_insert] at hk'
        split at hk'
        · rename_i heq
          subst heq
          cases hk'
          refine ⟨⟨fun d hd => hdata hd, by simp, fun _ => .inr ⟨(w.cleanup k).sent, ⟨h', url, false, none⟩, ⟨?_, rfl⟩, rfl, rfl⟩, ?_⟩,
            hmounts ▸ hmount⟩
          · rw [Dict.get?_insert, if_pos rfl]
          · intro i hi
            cases hi
            refine ⟨Nat.lt_succ_self _, fun r hr => ?_⟩
            rw [Dict.get?_insert, if_pos rfl] at hr
            cases hr
            rfl
        · rename_i hne
          refine ⟨(hothers hne hk').mono (fun a ha => ha) (Nat.le_succ _) ?_ ?_, hmounts ▸ (hw.hook h' k' hk').2⟩
          · intro j s hs howner
            exact ⟨s, ⟨hkeep hs.1, hs.2⟩, howner, rfl⟩
          · intro j s hj hs
            rw [Dict.get?_insert, if_neg (Nat.ne_of_lt hj)] at hs
            exact ⟨s, hs, rfl⟩
      · intro i r hr
        obtain ⟨hget, haborted⟩ := hr
        rw [Dict.get?_insert] at hget
        split at hget
        · rename_i heq
          cases hget
          exact ⟨_, by rw [Dict.get?_insert, if_pos rfl], by rw [heq], k.nonce, rfl⟩
        · obtain ⟨hlive', howner⟩ := hlive.mp ⟨hget, haborted⟩
          obtain ⟨k', hk', hrest⟩ := hw.owned i r hlive'
          exact ⟨k', by simp [hhooks, hk', howner], hrest⟩
      · intro i r hr
        rw [Dict.get?_insert] at hr
        split at hr
        · rename_i heq
          rw [heq]
          exact Nat.lt_succ_self _
        · change i < (w.cleanup k).sent + 1
          rw [hsent]
          exact Nat.lt_succ_of_lt (hbound hr)
      · exact hcached

theorem good_effects [DecidableEq R] (hw : Good w) (h : ℕ) : Good (w.effects h) := by
  rw [Tab.effects]
  cases hk : w.hooks.get? h with
  | none => exact hw
  | some k =>
      refine good_modify ?_ (fun _ => rfl) (fun _ => rfl) (fun _ => rfl)
      split
      · exact hw
      · exact good_fetchEffect hw hk

theorem good_outcome (hw : Good w) (hr : w.requests.get? i = some r) (outcome : Option (Except String D)) :
    Good { w with requests := w.requests.insert i { r with outcome := outcome } } := by
  have hold : ∀ {j s}, (w.requests.insert i { r with outcome := outcome }).get? j = some s →
      ∃ s', w.requests.get? j = some s' ∧ s'.owner = s.owner ∧ s'.url = s.url ∧ s'.aborted = s.aborted := by
    intro j s hs
    rw [Dict.get?_insert] at hs
    split at hs
    · rename_i heq
      cases hs
      exact ⟨r, by rw [heq, hr], rfl, rfl, rfl⟩
    · exact ⟨s, hs, rfl, rfl, rfl⟩
  constructor
  · intro h k hk
    obtain ⟨hgood, hlt⟩ := hw.hook h k hk
    refine ⟨hgood.mono (fun a ha => ha) le_rfl ?_ ?_, hlt⟩
    · intro j s hs howner
      by_cases heq : j = i
      · subst heq
        obtain rfl := Option.some.inj (hr.symm.trans hs.1)
        exact ⟨{ r with outcome := outcome }, ⟨by rw [Dict.get?_insert, if_pos rfl], hs.2⟩, howner, rfl⟩
      · exact ⟨s, ⟨by rw [Dict.get?_insert, if_neg heq, hs.1], hs.2⟩, howner, rfl⟩
    · intro j s _ hs
      obtain ⟨s', hs', howner, -⟩ := hold hs
      exact ⟨s', hs', howner⟩
  · intro j s hs
    obtain ⟨s', hs', howner, hurl, haborted⟩ := hold hs.1
    have hlive := hw.owned j s' ⟨hs', haborted.trans hs.2⟩
    rwa [howner, hurl] at hlive
  · intro j s hs
    obtain ⟨s', hs', -⟩ := hold hs
    exact hw.sent j s' hs'
  · exact hw.cached

def Tab.without (w : Tab Url D R) (i : ℕ) (cache : Dict Url D) (answers : List (Answer Url D)) : Tab Url D R :=
  { w with requests := w.requests.filter fun j _ => j ≠ i, cache := cache, answers := answers }

omit [DecidableEq Url] in
theorem live_without {cache : Dict Url D} {answers : List (Answer Url D)} {j : ℕ} {s : Request Url D} :
    (w.without i cache answers).Live j s ↔ w.Live j s ∧ j ≠ i := by
  simp only [Tab.Live, Tab.without, Dict.get?_filter, Option.filter_eq_some_iff, decide_eq_true_iff]
  exact and_right_comm

omit [DecidableEq Url] in
theorem Hook.Good.without (hk : k.Good w h) (cache : Dict Url D) {answers : List (Answer Url D)}
    (hanswers : ∀ a ∈ w.answers, a ∈ answers) (hne : ∀ s, w.Live i s → s.owner ≠ h) : k.Good (w.without i cache answers) h := by
  refine hk.mono hanswers le_rfl ?_ ?_
  · intro j s hs howner
    refine ⟨s, live_without.mpr ⟨hs, ?_⟩, howner, rfl⟩
    rintro rfl
    exact hne s hs howner
  · intro j s _ hs
    rw [Tab.without, Dict.get?_filter, Option.filter_eq_some_iff] at hs
    exact ⟨s, hs.1, rfl⟩

theorem good_done (hw : Good w) (hr : w.requests.get? i = some r) {cache : Dict Url D} {answers : List (Answer Url D)}
    (hran : ∀ k, (f k).ran = k.ran) (hctrl : ∀ k, (f k).ctrl = k.ctrl) (hloading : ∀ k, (f k).state.loading = false)
    (hanswers : ∀ a ∈ w.answers, a ∈ answers) (hcached : cache = Recent.puts maxCached (answers.map fun a => (a.url, a.data)))
    (hreceived : ∀ k d, k.Good w r.owner → (f k).state.data = some d → ∃ a ∈ answers, a.data = d)
    (hshown : ∀ k d, (f k).state.data = some d → (f k).state.error = none →
      ∃ u, (f k).state.url = some u ∧ ⟨r.owner, u, d⟩ ∈ answers) :
    Good (Tab.modify r.owner f (w.without i cache answers)) := by
  have hbound : ∀ {j s}, (w.without i cache answers).requests.get? j = some s → w.requests.get? j = some s := by
    intro j s hs
    rw [Tab.without, Dict.get?_filter, Option.filter_eq_some_iff] at hs
    exact hs.1
  have hother : ∀ {h k}, h ≠ r.owner → w.hooks.get? h = some k → k.Good (w.without i cache answers) h := by
    intro h k hne hk
    refine (hw.hook h k hk).1.without cache hanswers fun s hs => ?_
    obtain rfl := Option.some.inj (hr.symm.trans hs.1)
    exact Ne.symm hne
  rw [Tab.modify]
  cases hget : (w.without i cache answers).hooks.get? r.owner with
  | none =>
      constructor
      · intro h k hk
        refine ⟨hother ?_ hk, (hw.hook h k hk).2⟩
        rintro rfl
        cases hk.symm.trans hget
      · intro j s hs
        exact hw.owned j s (live_without.mp hs).1
      · intro j s hs
        exact hw.sent j s (hbound hs)
      · exact hcached
  | some k =>
      have hk : w.hooks.get? r.owner = some k := hget
      constructor
      · intro h' k' hk'
        rw [Dict.get?_insert] at hk'
        split at hk'
        · rename_i heq
          subst heq
          cases hk'
          obtain ⟨hgood, hlt⟩ := hw.hook _ k hk
          refine ⟨⟨fun d hd => hreceived k d hgood hd, fun d hd herror _ => hshown k d hd herror, ?_, ?_⟩, hlt⟩
          · intro htrue
            cases htrue.symm.trans (hloading k)
          · intro j hj
            rw [hctrl] at hj
            obtain ⟨hlt, hown⟩ := hgood.ctrl j hj
            exact ⟨hlt, fun s hs => hown s (hbound hs)⟩
        · rename_i hne
          obtain ⟨hreceived', hshown', hloading', hctrl'⟩ := hother hne hk'
          exact ⟨⟨hreceived', hshown', hloading', hctrl'⟩, (hw.hook h' k' hk').2⟩
      · intro j s hs
        have hlive : (w.without i cache answers).Live j s := hs
        obtain ⟨k', hk', hkj, n, hn⟩ := hw.owned j s (live_without.mp hlive).1
        by_cases heq : s.owner = r.owner
        · rw [heq, hk] at hk'
          cases hk'
          exact ⟨f k, by simp [heq], by rw [hctrl, hkj], n, by rw [hran, hn]⟩
        · refine ⟨k', ?_, hkj, n, hn⟩
          rw [Dict.get?_insert, if_neg heq]
          exact hk'
      · intro j s hs
        exact hw.sent j s (hbound hs)
      · exact hcached

theorem good_callBack (hw : Good w) (hr : w.requests.get? i = some r) (outcome : Except String D) :
    Good (w.callBack i r outcome) := by
  cases outcome with
  | ok data =>
      refine good_done hw hr (fun _ => rfl) (fun _ => rfl) (fun _ => rfl) (fun a ha => List.mem_append_left _ ha) ?_ ?_ ?_
      · rw [List.map_append, List.map_singleton, Recent.puts_snoc, ← hw.cached]
        rfl
      · intro k d _ hd
        cases hd
        exact ⟨_, List.mem_append_right _ List.mem_cons_self, rfl⟩
      · intro k d hd _
        cases hd
        exact ⟨r.url, rfl, List.mem_append_right _ List.mem_cons_self⟩
  | error message =>
      rw [Tab.callBack]
      cases haborted : r.aborted with
      | false =>
          refine good_done hw hr (fun _ => rfl) (fun _ => rfl) (fun _ => rfl) (fun a ha => ha) hw.cached ?_ ?_
          · intro k d hgood hd
            exact hgood.received d hd
          · intro k d _ herror
            cases herror
      | true =>
          constructor
          · intro h k hk
            obtain ⟨hgood, hlt⟩ := hw.hook h k hk
            refine ⟨hgood.without w.cache (fun a ha => ha) fun s hs => ?_, hlt⟩
            obtain rfl := Option.some.inj (hr.symm.trans hs.1)
            cases haborted.symm.trans hs.2
          · intro j s hs
            have hlive : (w.without i w.cache w.answers).Live j s := hs
            exact hw.owned j s (live_without.mp hlive).1
          · intro j s hs
            have hget := (Dict.get?_filter (fun j _ => decide (j ≠ i)) w.requests j).symm.trans hs
            rw [Option.filter_eq_some_iff] at hget
            exact hw.sent j s hget.1
          · exact hw.cached

theorem good_start : Good (Tab.start : Tab Url D R) :=
  ⟨by simp [Tab.start], by simp [Tab.start, Tab.Live], by simp [Tab.start], rfl⟩

theorem good_step [DecidableEq R] {e : Event Url D R} (hw : Good w) (hstep : w.step e = some w') : Good w' := by
  cases e with
  | mount url refreshOn =>
      cases hstep
      exact good_mount hw url refreshOn
  | render h url refreshOn =>
      cases hstep
      exact good_modify (good_effects hw h) (fun _ => rfl) (fun _ => rfl) (fun _ => rfl)
  | effects h =>
      cases hstep
      exact good_effects hw h
  | reload h =>
      cases hstep
      exact good_modify hw (fun _ => rfl) (fun _ => rfl) (fun _ => rfl)
  | unmount h =>
      cases hstep
      exact good_unmount hw h
  | answer i data =>
      simp only [Tab.step] at hstep
      split at hstep
      · rename_i hr
        cases hstep
        exact good_outcome hw hr _
      · cases hstep
  | refuse i message =>
      simp only [Tab.step] at hstep
      split at hstep
      · rename_i hr
        cases hstep
        exact good_outcome hw hr _
      · cases hstep
  | callBack i =>
      simp only [Tab.step] at hstep
      split at hstep
      · rename_i hr
        cases hstep
        exact good_callBack hw hr _
      · cases hstep

end Steps

/-- What is shown as fresh and without an error is an answer to a request of that
use for the URL it has now; a use that loads has a request in flight, or its effects
are yet to run; it never has two, and one that is unmounted has none. -/
structure Truthful (w : Tab Url D R) : Prop where
  fresh : ∀ h k d, w.hooks.get? h = some k → k.view.data = some d → k.view.stale = false → k.view.error = none →
    ∃ u, k.url = some u ∧ ⟨h, u, d⟩ ∈ w.answers
  received : ∀ h k d, w.hooks.get? h = some k → k.view.data = some d → ∃ a ∈ w.answers, a.data = d
  loading : ∀ h k, w.hooks.get? h = some k → k.view.loading = true →
    k.ran = none ∨ ∃ i r, w.Live i r ∧ r.owner = h ∧ k.state.url = some r.url
  single : ∀ i j r s, w.Live i r → w.Live j s → r.owner = s.owner → i = j
  mounted : ∀ i r, w.Live i r → ∃ k n, w.hooks.get? r.owner = some k ∧ k.ran = some (some r.url, n)
  cached : w.cache.entries =
    let log := Recent.latest (w.answers.map fun a => (a.url, a.data))
    log.drop (log.length - maxCached)

theorem Hook.view_fresh {k : Hook Url D R} {d : D} (hdata : k.view.data = some d) (hstale : k.view.stale = false) :
    k.state.url = k.url ∧ k.state.loading = false := by
  have hd : k.state.data = some d := hdata
  simpa [Hook.view, hd] using hstale

/-- However renders, effects, answers, failures and call backs come in turn. -/
theorem query_truthful [DecidableEq R] {es : List (Event Url D R)} {w : Tab Url D R} (h : Run Tab.step Free .start es w) :
    Truthful w := by
  have hw : Good w := h.invariant good_start fun _ _ _ hs _ ht => good_step hs ht
  constructor
  · intro h k d hk hdata hstale herror
    obtain ⟨hurl, hloading⟩ := Hook.view_fresh hdata hstale
    obtain ⟨u, hu, hmem⟩ := (hw.hook h k hk).1.shown d hdata herror hloading
    exact ⟨u, hurl ▸ hu, hmem⟩
  · intro h k d hk hdata
    exact (hw.hook h k hk).1.received d hdata
  · intro h k hk hloading
    exact (hw.hook h k hk).1.loading hloading
  · intro i j r s hr hs howner
    obtain ⟨k, hk, hki, -⟩ := hw.owned i r hr
    obtain ⟨k', hk', hkj, -⟩ := hw.owned j s hs
    rw [howner, hk'] at hk
    cases hk
    exact Option.some.inj (hki.symm.trans hkj)
  · intro i r hr
    obtain ⟨k, hk, -, n, hn⟩ := hw.owned i r hr
    exact ⟨k, n, hk, hn⟩
  · rw [hw.cached]
    exact Recent.entries_puts _ _

/-- The second URL fails: the answer for the first one stays, and is not stale. -/
def sampleEvents : List (Event ℕ String ℕ) :=
  [.mount (some 1) none, .effects 0, .answer 0 "a", .callBack 0, .render 0 (some 2) none, .effects 0,
    .refuse 1 "timeout", .callBack 1]

theorem sampleEvents_run : (exec Tab.step .start sampleEvents).isSome = true := by decide +kernel

def sampleTab : Tab ℕ String ℕ := (exec Tab.step .start sampleEvents).get sampleEvents_run

theorem query_truthful_sample : Truthful sampleTab ∧
    sampleTab.hooks.values.map Hook.view = [⟨some "a", some "timeout", false, false⟩] :=
  ⟨query_truthful (Run.of_exec (Option.some_get sampleEvents_run).symm), by decide +kernel⟩

end NetWatch.Client.Query
