import NetWatch.Lib.GroupFold
import NetWatch.Lib.JsValue
import NetWatch.Lib.LargestFirst

namespace NetWatch.History.Treemap

open Lib Lib.Assoc Lib.Buckets Lib.GroupFold Lib.JsValue Lib.LargestFirst

/-- The bytes are the number that the text of the sum denotes. -/
structure TreemapRow where
  uid : ℕ
  name : Units
  app : Units
  bytes : ℤ

structure TreemapApp where
  name : Units
  value : ℤ
  deriving DecidableEq

structure TreemapProc where
  name : Units
  value : ℤ
  folded : Option ℕ
  children : List TreemapApp
  deriving DecidableEq

structure TreemapUser where
  name : Units
  uid : ℕ
  value : ℤ
  children : List TreemapProc
  deriving DecidableEq

def unknownUid : ℕ := 4294967295

def userLabel (uid : ℕ) (user : ℕ → Option Units) : Units :=
  if uid = unknownUid then units "unknown uid" else (user uid).getD (units ("uid " ++ toString uid))

def apps (m : Dict Units ℤ) : List TreemapApp :=
  largestFirst TreemapApp.value TreemapApp.name (m.entries.map fun e => ⟨e.1, e.2⟩)

def addRow (users : Dict ℕ (Dict Units (Dict Units ℤ))) (r : TreemapRow) : Dict ℕ (Dict Units (Dict Units ℤ)) :=
  if 0 < r.bytes then
    let procs := (users.get? r.uid).getD .empty
    let a := (procs.get? r.name).getD .empty
    users.insert r.uid (procs.insert r.name (a.insert r.app ((a.get? r.app).getD 0 + r.bytes)))
  else users

def procNode (name : Units) (m : Dict Units ℤ) : TreemapProc :=
  let children := apps m
  ⟨name, total TreemapApp.value children, none, children⟩

def addApp (m : Dict Units ℤ) (c : TreemapApp) : Dict Units ℤ := m.insert c.name ((m.get? c.name).getD 0 + c.value)

def otherName (n : ℕ) : Units := units ("other (" ++ toString n ++ " processes)")

/-- The processes past the limit in one node, unless there is only one. -/
def foldRest (top : ℕ) (procs : List TreemapProc) : List TreemapProc :=
  if top + 1 < procs.length then
    let rest := procs.drop top
    let merged := rest.foldl (fun m p => p.children.foldl addApp m) .empty
    procs.take top ++ [⟨otherName rest.length, total TreemapProc.value rest, some rest.length, apps merged⟩]
  else procs

def userNode (user : ℕ → Option Units) (top : ℕ) (uid : ℕ) (procMap : Dict Units (Dict Units ℤ)) : TreemapUser :=
  let procs := largestFirst TreemapProc.value TreemapProc.name (procMap.entries.map fun e => procNode e.1 e.2)
  let kept := foldRest top procs
  ⟨userLabel uid user, uid, total TreemapProc.value kept, kept⟩

def buildTreemap (rows : List TreemapRow) (user : ℕ → Option Units) (top : ℕ) : List TreemapUser :=
  let users := rows.foldl addRow .empty
  largestFirst TreemapUser.value TreemapUser.uid (users.entries.map fun e => userNode user top e.1 e.2)

section Nesting

variable {rows : List TreemapRow} {uid : ℕ} {name : Units}

def positive (rows : List TreemapRow) : List TreemapRow := rows.filter fun r => 0 < r.bytes

def byApp (rows : List TreemapRow) : Dict Units ℤ := sumBy TreemapRow.app TreemapRow.bytes rows

def byName (rows : List TreemapRow) : Dict Units (Dict Units ℤ) :=
  groupFold TreemapRow.name (fun _ => .empty) (into TreemapRow.app (fun _ => 0) fun b r => b + r.bytes) rows

theorem users_eq (rows : List TreemapRow) : rows.foldl addRow .empty =
    groupFold TreemapRow.uid (fun _ => .empty)
      (into TreemapRow.name (fun _ => .empty) (into TreemapRow.app (fun _ => 0) fun b r => b + r.bytes)) (positive rows) := by
  rw [groupFold, positive, List.foldl_filter]
  congr 1
  funext users r
  rw [addRow]
  by_cases hpos : 0 < r.bytes
  · rw [if_pos hpos, if_pos (decide_eq_true hpos)]
    rfl
  · rw [if_neg hpos, if_neg (by simpa using hpos)]

theorem get?_users (rows : List TreemapRow) (uid : ℕ) : (rows.foldl addRow .empty).get? uid =
    if ofKey TreemapRow.uid uid (positive rows) = [] then none else some (byName (ofKey TreemapRow.uid uid (positive rows))) := by
  rw [users_eq, get?_groupFold, collect_const]
  rfl

theorem get?_byName (rows : List TreemapRow) (name : Units) : (byName rows).get? name =
    if ofKey TreemapRow.name name rows = [] then none else some (byApp (ofKey TreemapRow.name name rows)) := by
  rw [byName, get?_groupFold, collect_const]
  rfl

end Nesting

section Apps

variable {rows : List TreemapRow} {m : Dict Units ℤ} {cs : List TreemapApp}

structure PerApp (rows : List TreemapRow) (cs : List TreemapApp) : Prop where
  nodup : (cs.map TreemapApp.name).Nodup
  names : ∀ app, app ∈ cs.map TreemapApp.name ↔ app ∈ rows.map TreemapRow.app
  values : ∀ c ∈ cs, c.value = total TreemapRow.bytes (ofKey TreemapRow.app c.name rows)
  sorted : cs.Pairwise fun c c' => c'.value < c.value ∨ c.value = c'.value ∧ c.name ≤ c'.name

theorem apps_perm (h : ∀ app, m.get? app =
    if ofKey TreemapRow.app app rows = [] then none else some (total TreemapRow.bytes (ofKey TreemapRow.app app rows))) :
    (apps m).Perm ((rows.map TreemapRow.app).dedup.map fun app => ⟨app, total TreemapRow.bytes (ofKey TreemapRow.app app rows)⟩) := by
  have hperm := (entries_perm h).map fun e => (⟨e.1, e.2⟩ : TreemapApp)
  rw [List.map_map] at hperm
  exact (largestFirst_perm _).trans hperm

theorem apps_perApp (h : ∀ app, m.get? app =
    if ofKey TreemapRow.app app rows = [] then none else some (total TreemapRow.bytes (ofKey TreemapRow.app app rows))) :
    PerApp rows (apps m) := by
  have hperm := apps_perm h
  have hnames := hperm.map TreemapApp.name
  rw [List.map_map] at hnames
  have hid : (TreemapApp.name ∘ fun app => ⟨app, total TreemapRow.bytes (ofKey TreemapRow.app app rows)⟩) = id := rfl
  rw [hid, List.map_id] at hnames
  refine ⟨hnames.nodup_iff.mpr (List.nodup_dedup _), fun app => ?_, fun c hc => ?_, largestFirst_pairwise _⟩
  · rw [hnames.mem_iff, List.mem_dedup]
  · obtain ⟨app, -, rfl⟩ := List.mem_map.mp (hperm.mem_iff.mp hc)
    rfl

theorem total_apps (h : ∀ app, m.get? app =
    if ofKey TreemapRow.app app rows = [] then none else some (total TreemapRow.bytes (ofKey TreemapRow.app app rows))) :
    total TreemapApp.value (apps m) = total TreemapRow.bytes rows := by
  rw [total_perm (apps_perm h), total_map]
  exact sum_keys rows

theorem get?_byApp (app : Units) : (byApp rows).get? app =
    if ofKey TreemapRow.app app rows = [] then none else some (total TreemapRow.bytes (ofKey TreemapRow.app app rows)) :=
  get?_sumBy app

end Apps

section Procs

variable {own : List TreemapRow} {names : List Units} {top : ℕ} {procs : List TreemapProc} {p : TreemapProc}

structure IsProc (own : List TreemapRow) (p : TreemapProc) : Prop where
  unfolded : p.folded = none
  value : p.value = total TreemapRow.bytes (ofKey TreemapRow.name p.name own)
  children : PerApp (ofKey TreemapRow.name p.name own) p.children
  sum : p.value = total TreemapApp.value p.children

structure AllProcs (own : List TreemapRow) (procs : List TreemapProc) : Prop where
  names : (procs.map TreemapProc.name).Perm (own.map TreemapRow.name).dedup
  nodes : ∀ p ∈ procs, IsProc own p
  sorted : procs.Pairwise fun p p' => p'.value < p.value ∨ p.value = p'.value ∧ p.name ≤ p'.name

theorem procNode_isProc (name : Units) : IsProc own (procNode name (byApp (ofKey TreemapRow.name name own))) :=
  ⟨rfl, total_apps get?_byApp, apps_perApp get?_byApp, rfl⟩

theorem all_procs (own : List TreemapRow) : AllProcs own
    (largestFirst TreemapProc.value TreemapProc.name ((byName own).entries.map fun e => procNode e.1 e.2)) := by
  have hperm := (entries_perm (get?_byName own)).map fun e => procNode e.1 e.2
  rw [List.map_map] at hperm
  have hall : (largestFirst TreemapProc.value TreemapProc.name ((byName own).entries.map fun e => procNode e.1 e.2)).Perm _ :=
    (largestFirst_perm _).trans hperm
  refine ⟨?_, fun p hp => ?_, largestFirst_pairwise _⟩
  · have hnames := hall.map TreemapProc.name
    rw [List.map_map] at hnames
    exact hnames.trans (.of_eq (List.map_id _))
  · obtain ⟨name, -, rfl⟩ := List.mem_map.mp (hall.mem_iff.mp hp)
    exact procNode_isProc name

theorem AllProcs.total (h : AllProcs own procs) : total TreemapProc.value procs = total TreemapRow.bytes own := by
  have hvalues : Buckets.total TreemapProc.value procs =
      ((procs.map TreemapProc.name).map fun name => Buckets.total TreemapRow.bytes (ofKey TreemapRow.name name own)).sum := by
    rw [Buckets.total, List.map_map]
    exact congrArg List.sum (List.map_congr_left fun p hp => (h.nodes p hp).value)
  rw [hvalues, (h.names.map _).sum_eq]
  exact sum_keys own

theorem total_foldRest (procs : List TreemapProc) : total TreemapProc.value (foldRest top procs) = total TreemapProc.value procs := by
  unfold foldRest
  split
  · have hsplit := congrArg (total TreemapProc.value) (List.take_append_drop top procs)
    rw [total_append] at hsplit
    rw [total_append, total_cons, total_nil, add_zero, hsplit]
  · rfl

end Procs

section Folded

variable {own rows : List TreemapRow} {rest : List TreemapProc} {cs : List TreemapApp} {app : Units}

def rowsOf (own : List TreemapRow) (ps : List TreemapProc) : List TreemapRow :=
  ofKeys TreemapRow.name (ps.map TreemapProc.name) own

theorem merged_eq (rest : List TreemapProc) : rest.foldl (fun m p => p.children.foldl addApp m) .empty =
    sumBy TreemapApp.name TreemapApp.value (rest.flatMap TreemapProc.children) := by
  rw [sumBy, groupFold, List.foldl_flatMap]
  rfl

theorem PerApp.total_app (h : PerApp rows cs) (app : Units) : total TreemapApp.value (ofKey TreemapApp.name app cs) =
    total TreemapRow.bytes (ofKey TreemapRow.app app rows) := by
  rw [total_ofKey_nodup h.nodup app (fun app => total TreemapRow.bytes (ofKey TreemapRow.app app rows)) h.values]
  by_cases happ : app ∈ rows.map TreemapRow.app
  · rw [if_pos ((h.names app).mpr happ)]
  · rw [if_neg (mt (h.names app).mp happ), not_not.mp (mt ofKey_ne_nil.mp happ)]
    rfl

theorem mem_merged (hnodes : ∀ p ∈ rest, IsProc own p) :
    app ∈ (rest.flatMap TreemapProc.children).map TreemapApp.name ↔ app ∈ (rowsOf own rest).map TreemapRow.app := by
  have hchildren : ∀ p ∈ rest, app ∈ p.children.map TreemapApp.name ↔ app ∈ (ofKey TreemapRow.name p.name own).map TreemapRow.app :=
    fun p hp => (hnodes p hp).children.names app
  rw [List.map_flatMap, List.mem_flatMap, List.mem_map]
  constructor
  · rintro ⟨p, hp, happ⟩
    obtain ⟨r, hr, rfl⟩ := List.mem_map.mp ((hchildren p hp).mp happ)
    obtain ⟨hown, hname⟩ := mem_ofKey.mp hr
    exact ⟨r, mem_ofKeys.mpr ⟨hown, List.mem_map.mpr ⟨p, hp, hname.symm⟩⟩, rfl⟩
  · rintro ⟨r, hr, rfl⟩
    obtain ⟨hown, hname⟩ := mem_ofKeys.mp hr
    obtain ⟨p, hp, heq⟩ := List.mem_map.mp hname
    exact ⟨p, hp, (hchildren p hp).mpr (List.mem_map.mpr ⟨r, mem_ofKey.mpr ⟨hown, heq.symm⟩, rfl⟩)⟩

theorem total_merged (hnodes : ∀ p ∈ rest, IsProc own p) (hnodup : (rest.map TreemapProc.name).Nodup) (app : Units) :
    total TreemapApp.value (ofKey TreemapApp.name app (rest.flatMap TreemapProc.children)) =
      total TreemapRow.bytes (ofKey TreemapRow.app app (rowsOf own rest)) := by
  have hflat : ∀ ps : List TreemapProc, total TreemapApp.value (ofKey TreemapApp.name app (ps.flatMap TreemapProc.children)) =
      (ps.map fun p => total TreemapApp.value (ofKey TreemapApp.name app p.children)).sum := by
    intro ps
    induction ps with
    | nil => rfl
    | cons p ps ih => rw [List.flatMap_cons, ofKey_append, total_append, ih, List.map_cons, List.sum_cons]
  have hproc : ∀ p ∈ rest, total TreemapApp.value (ofKey TreemapApp.name app p.children) =
      total TreemapRow.bytes (ofKey TreemapRow.name p.name (ofKey TreemapRow.app app own)) := by
    intro p hp
    rw [(hnodes p hp).children.total_app, ofKey, ofKey, ofKey, ofKey, List.filter_comm]
  have hswap : ofKey TreemapRow.app app (rowsOf own rest) =
      ofKeys TreemapRow.name (rest.map TreemapProc.name) (ofKey TreemapRow.app app own) := List.filter_comm ..
  rw [hflat, List.map_congr_left hproc, hswap, ← sum_some_keys hnodup, List.map_map]
  rfl

theorem merged_get? (hnodes : ∀ p ∈ rest, IsProc own p) (hnodup : (rest.map TreemapProc.name).Nodup) (app : Units) :
    (rest.foldl (fun m p => p.children.foldl addApp m) (Dict.empty : Dict Units ℤ)).get? app =
      if ofKey TreemapRow.app app (rowsOf own rest) = [] then none
      else some (total TreemapRow.bytes (ofKey TreemapRow.app app (rowsOf own rest))) := by
  rw [merged_eq, get?_sumBy, total_merged hnodes hnodup]
  apply if_congr _ rfl rfl
  exact not_iff_not.mp (ofKey_ne_nil.trans ((mem_merged hnodes).trans ofKey_ne_nil.symm))

end Folded

section Tree

variable {rows : List TreemapRow} {user : ℕ → Option Units} {top : ℕ} {u : TreemapUser} {own : List TreemapRow}

structure IsOther (own : List TreemapRow) (rest : List TreemapProc) (f : TreemapProc) : Prop where
  name : f.name = otherName rest.length
  folded : f.folded = some rest.length
  several : 2 ≤ rest.length
  value : f.value = total TreemapProc.value rest
  children : PerApp (rowsOf own rest) f.children
  sum : f.value = total TreemapApp.value f.children

/-- A user with all its processes, or the largest of them with the rest folded. -/
def Folds (top : ℕ) (own : List TreemapRow) (children : List TreemapProc) : Prop :=
  ∃ procs, AllProcs own procs ∧ (procs.length ≤ top + 1 ∧ children = procs ∨
    top + 1 < procs.length ∧ ∃ f, children = procs.take top ++ [f] ∧ IsOther own (procs.drop top) f)

theorem foldRest_folds {procs : List TreemapProc} (h : AllProcs own procs) : Folds top own (foldRest top procs) := by
  refine ⟨procs, h, ?_⟩
  unfold foldRest
  split
  · rename_i hmany
    have hnodes : ∀ p ∈ procs.drop top, IsProc own p := fun p hp => h.nodes p (List.mem_of_mem_drop hp)
    have hnodup : ((procs.drop top).map TreemapProc.name).Nodup :=
      (h.names.nodup_iff.mpr (List.nodup_dedup _)).sublist ((List.drop_sublist top procs).map _)
    have hget := merged_get? hnodes hnodup
    have hsum : total TreemapProc.value (procs.drop top) = total TreemapRow.bytes (rowsOf own (procs.drop top)) := by
      rw [rowsOf, ← sum_some_keys hnodup, List.map_map]
      exact congrArg List.sum (List.map_congr_left fun p hp => (hnodes p hp).value)
    refine .inr ⟨hmany, _, rfl, rfl, rfl, ?_, rfl, apps_perApp hget, ?_⟩
    · rw [List.length_drop]
      omega
    · exact hsum.trans (total_apps hget).symm
  · rename_i hfew
    exact .inl ⟨Nat.not_lt.mp hfew, rfl⟩

theorem Folds.length_le {children : List TreemapProc} (h : Folds top own children) : children.length ≤ top + 1 := by
  obtain ⟨procs, -, ⟨hlen, rfl⟩ | ⟨hmany, f, rfl, -⟩⟩ := h
  · exact hlen
  · rw [List.length_append, List.length_take, List.length_singleton]
    omega

theorem Folds.sum {children : List TreemapProc} (h : Folds top own children) :
    ∀ p ∈ children, p.value = total TreemapApp.value p.children := by
  obtain ⟨procs, hall, ⟨-, rfl⟩ | ⟨-, f, rfl, hf⟩⟩ := h
  · exact fun p hp => (hall.nodes p hp).sum
  · intro p hp
    obtain hp | hp := List.mem_append.mp hp
    · exact (hall.nodes p (List.mem_of_mem_take hp)).sum
    · cases List.mem_singleton.mp hp
      exact hf.sum

theorem tree_perm (rows : List TreemapRow) (user : ℕ → Option Units) (top : ℕ) : (buildTreemap rows user top).Perm
    (((positive rows).map TreemapRow.uid).dedup.map fun uid =>
      userNode user top uid (byName (ofKey TreemapRow.uid uid (positive rows)))) := by
  have hperm := (entries_perm (get?_users rows)).map fun e => userNode user top e.1 e.2
  rw [List.map_map] at hperm
  exact (largestFirst_perm _).trans hperm

theorem userNode_value (uid : ℕ) (own : List TreemapRow) : (userNode user top uid (byName own)).value = total TreemapRow.bytes own :=
  (total_foldRest _).trans (all_procs own).total

/-- Every value is the sum of the values below it, down to the bytes of the rows; the users are in
order, and each has its largest processes, with the rest of them, if it is more than one, in a last
node of their sums. -/
theorem treemap_conserves (rows : List TreemapRow) (user : ℕ → Option Units) (top : ℕ) :
    let tree := buildTreemap rows user top
    (total TreemapUser.value tree = total TreemapRow.bytes (positive rows) ∧
      ∀ u ∈ tree, u.value = total TreemapProc.value u.children ∧ ∀ p ∈ u.children, p.value = total TreemapApp.value p.children) ∧
    ((tree.map TreemapUser.uid).Perm ((positive rows).map TreemapRow.uid).dedup ∧ (tree.map TreemapUser.uid).Nodup ∧
      tree.Pairwise fun u u' => u'.value < u.value ∨ u.value = u'.value ∧ u.uid < u'.uid) ∧
    ∀ u ∈ tree, u.children.length ≤ top + 1 ∧ Folds top (ofKey TreemapRow.uid u.uid (positive rows)) u.children := by
  intro tree
  have hperm := tree_perm rows user top
  have huids : (tree.map TreemapUser.uid).Perm ((positive rows).map TreemapRow.uid).dedup := by
    have h := hperm.map TreemapUser.uid
    rw [List.map_map] at h
    exact h.trans (.of_eq (List.map_id _))
  have hnodup := huids.nodup_iff.mpr (List.nodup_dedup _)
  have hfolds : ∀ u ∈ tree, u.value = total TreemapProc.value u.children ∧
      Folds top (ofKey TreemapRow.uid u.uid (positive rows)) u.children := by
    intro u hu
    obtain ⟨uid, -, rfl⟩ := List.mem_map.mp (hperm.mem_iff.mp hu)
    exact ⟨rfl, foldRest_folds (all_procs _)⟩
  refine ⟨⟨?_, fun u hu => ⟨(hfolds u hu).1, (hfolds u hu).2.sum⟩⟩, ⟨huids, hnodup, ?_⟩,
    fun u hu => ⟨(hfolds u hu).2.length_le, (hfolds u hu).2⟩⟩
  · rw [total_perm hperm, total_map]
    have hvalues : (fun uid => (userNode user top uid (byName (ofKey TreemapRow.uid uid (positive rows)))).value) =
        fun uid => total TreemapRow.bytes (ofKey TreemapRow.uid uid (positive rows)) := by
      funext uid
      exact userNode_value uid _
    rw [hvalues]
    exact sum_keys _
  · have hsorted : tree.Pairwise _ := largestFirst_pairwise _
    have hne : tree.Pairwise fun u u' => u.uid ≠ u'.uid := List.pairwise_map.mp hnodup
    exact (hsorted.and hne).imp fun h => h.1.imp id fun heq => ⟨heq.1, lt_of_le_of_ne heq.2 h.2⟩

end Tree

end NetWatch.History.Treemap
