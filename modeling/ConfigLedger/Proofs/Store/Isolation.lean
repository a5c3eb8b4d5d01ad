import ConfigLedger.Proofs.Store.Drafts
import ConfigLedger.Proofs.Store.Merging

/-!
# Isolation of resources

Clients of many resources and tenants make calls on one store, one after the other. What does the
client of one resource learn about the others? Nothing: if all calls on other resources are left
out, and calls on many keys are cut down to the keys of the resource, then what is left is answered
as before, and the same documents of the resource are stored (`Job.runAll_left`).

Calls read the clock, so the calls that are left have to be shown the times that they were shown
before. `Job.readers` says which elements of a call read the clock, and `Job.timings` which times
they are shown.
-/

namespace ConfigLedger

variable {c c' : Collection} {s s' : Setting} {key : Key} {resource : Resource}

/-! ### Jobs -/

/-- What is asked of a store: an operation that is named as a call, or the values of several
contexts merged into one. -/
inductive Job where
  | call (c : StoreCall)
  | merge (resource : Resource) (contexts : List String)

/-- The collection that a medium keeps. -/
def Medium.collection : Medium → Collection
  | memory c _ => c
  | file f _ => f.collection

namespace Job

/-- What a job answers if it succeeds. -/
def Answer : Job → Type
  | call c => c.Answer
  | merge .. => Option Merged

/-- Does a job. -/
def run : (j : Job) → Setting → Except StoreError j.Answer × Setting
  | call c, s => c.call.run s
  | merge resource contexts, s => (Store.readMerged resource contexts).run s

/-- A job with its outcome. -/
abbrev Answered : Type :=
  (j : Job) × Except StoreError j.Answer

/-- Does jobs one after the other. -/
def runAll : List Job → Setting → List Answered × Setting
  | [], s => ([], s)
  | j :: rest, s =>
    let (outcome, s) := j.run s
    let (outcomes, s) := runAll rest s
    (⟨j, outcome⟩ :: outcomes, s)

/-! ### What is left -/

/-- The resource of a job, unless it is a job on many keys. -/
def resource? : Job → Option Resource
  | call (.write _ key _ _) | call (.delete _ key) | call (.read key) => some key.resource
  | call (.query resource _) | call (.count resource _) | merge resource _ => some resource
  | call (.bulkWrite ..) | call (.bulkDelete ..) | call (.readMany _) => none

/-- What is left of a job if only one resource counts, and what is left of its answer. A job on
another resource is left out, and so is a job on many keys none of which belongs to the resource. -/
def left (resource : Resource) : (j : Job) → Option ((j' : Job) × (j.Answer → j'.Answer))
  | call (.bulkWrite author values) =>
    let own := values.select fun key => decide (key.resource = resource)
    if own.toList = [] then none
    else some ⟨call (.bulkWrite author own),
      List.filter fun e : Key × Except StoreError Written => decide (e.1.resource = resource)⟩
  | call (.bulkDelete author keys) =>
    let own := keys.filter fun key => decide (key.resource = resource)
    if own = [] then none
    else some ⟨call (.bulkDelete author own),
      List.filter fun e : Key × Except StoreError (Option Record) =>
        decide (e.1.resource = resource)⟩
  | call (.readMany keys) =>
    let own := keys.filter fun key => decide (key.resource = resource)
    if own = [] then none
    else some ⟨call (.readMany own), fun records : Entries Key Record =>
      records.select fun key => decide (key.resource = resource)⟩
  | j => if j.resource? = some resource then some ⟨j, id⟩ else none

/-- The job that is left. -/
def left? (resource : Resource) (j : Job) : Option Job :=
  (j.left resource).map Sigma.fst

/-- The job that is left, with what is left of its outcome. -/
def Answered.left? (resource : Resource) (a : Answered) : Option Answered :=
  (a.1.left resource).map fun l => ⟨l.1, a.2.map l.2⟩

/-! ### Times -/

/-- The keys of the elements that read the clock, in the order in which they do. A write reads it
unless it is refused at once, and a deletion if its key lives. -/
def readers (c : Collection) : Job → List Key
  | call (.write _ key value precondition) =>
    match Store.checkWritable key value, compiled precondition with
    | .ok _, .ok _ => [key]
    | _, _ => []
  | call (.delete _ key) => [key].filter fun key => (c.shown key).isSome
  | call (.bulkWrite _ values) => (values.toList.filter fun e => !e.2.isNull).map Prod.fst
  | call (.bulkDelete _ keys) => (firstBy id keys).filter fun key => (c.shown key).isSome
  | _ => []

/-- The elements of jobs that read the clock, each with the time that it is shown. -/
def timings : List Job → Setting → List (Key × UInt64)
  | [], _ => []
  | j :: rest, s =>
    stamps s.readings (j.readers s.medium.collection) ++ timings rest (j.run s).2

end Job

/-! ### Readers -/

namespace Store

/-- The elements of a bulk write that read the clock are those that may be written. -/
theorem timedKeys_draftWrites (author : Author) (c : Collection) (elements : List (Key × Value)) :
    Draft.timedKeys (draftWrites author c elements) =
      (elements.filter fun e => !e.2.isNull).map Prod.fst := by
  induction elements with
  | nil => rfl
  | cons element rest ih =>
    obtain ⟨key, value⟩ := element
    rw [draftWrites, List.map_cons, draftWrite, checkWritable, List.filter_cons]
    cases hvalue : value.isNull with
    | true => exact ih
    | false => exact congrArg (key :: ·) ih

/-- The elements of a bulk deletion that read the clock are the keys that live, each where it comes
first. -/
theorem timedKeys_draftDeletes (author : Author) (c : Collection) (seen keys : List Key) :
    Draft.timedKeys (draftDeletes author c seen keys) =
      (firstBy id keys).filter fun key => decide (key ∉ seen) && (c.shown key).isSome := by
  induction keys generalizing seen with
  | nil => rfl
  | cons key rest ih =>
    -- what comes behind differs from the first key
    have hrest : ((firstBy id rest).filter fun k => id k != id key).filter
        (fun k => decide (k ∉ seen) && (c.shown k).isSome) =
          Draft.timedKeys (draftDeletes author c (key :: seen) rest) := by
      rw [ih, List.filter_filter]
      refine List.filter_congr fun k _ => ?_
      by_cases hk : k = key <;> simp [hk]
    rw [draftDeletes, firstBy, List.filter_cons, hrest, draftDelete]
    -- a repeated key reads no clock, and neither does one without a record
    by_cases hmem : key ∈ seen
    · rw [if_pos hmem, Draft.timedKeys, if_neg (by simp [hmem])]
    · rw [if_neg hmem]
      cases hr : c.shown key with
      | none => rw [Draft.timedKeys, if_neg (by simp)]
      | some r => rw [Draft.timedKeys, if_pos (by simp [hmem])]

end Store

/-! ### Jobs with one element -/

/-- Answers a draft, or fills in its time and commits it. -/
def Draft.perform {α : Type} (precondition : Option Predicate)
    (finish : Pending → Except StoreError α) (c : Collection) (s : Setting) :
    Draft α → Except StoreError α × Setting
  | answered answer => (answer, s)
  | timed pending =>
    let p := pending (s.readings 0)
    ((p.commit c precondition).1.bind fun _ => finish p,
      { s.tick with medium := .memory (p.commit c precondition).2 none })

namespace Job

/-- A job with one element. Its draft depends on what there is of one resource, and what is
committed belongs to that. -/
structure Single (j : Job) where
  key : Key
  draft : Collection → Draft j.Answer
  precondition : Option Predicate := none
  finish : Pending → Except StoreError j.Answer
  draft_congr : ∀ {c c'}, c.only key.resource = c'.only key.resource → draft c = draft c'
  own : ∀ {c pending}, draft c = .timed pending → ∀ now, (pending now).document.key = key
  resource?_eq : j.resource? = some key.resource
  readers_eq : ∀ c, j.readers c = Draft.timedKeys [(key, draft c)]
  run_eq : ∀ {c s}, s.medium = .memory c none → s.monitors.held = [] →
    j.run s = (draft c).perform precondition finish c s

namespace Single

variable {j : Job}

/-- A job that reads. -/
def reading (key : Key) (answer : Collection → Except StoreError j.Answer)
    (hanswer : ∀ {c c'}, c.only key.resource = c'.only key.resource → answer c = answer c')
    (hresource : j.resource? = some key.resource) (hreaders : ∀ c, j.readers c = [])
    (hrun : ∀ {c s}, s.medium.Shows c → j.run s = (answer c, s)) : Single j where
  key
  draft c := .answered (answer c)
  finish _ := .error .deadlineExceeded
  draft_congr h := congrArg Draft.answered (hanswer h)
  own h := by cases h
  resource?_eq := hresource
  readers_eq := hreaders
  run_eq hs _ := hrun (Store.shows hs)

def write (author : Author) (key : Key) (value : Value) (filter : Option Filter) :
    Single (call (.write author key value filter)) where
  key
  draft c := match Store.checkWritable key value, compiled filter with
    | .error e, _ | _, .error e => .answered (.error e)
    | .ok (), .ok _ => .timed (.ofWrite author key value (c.latest key))
  precondition := (compiled filter).toOption.join
  finish := Pending.written
  draft_congr h := by rw [Collection.latest_congr_only h]
  own {c pending} h now := by
    split at h <;> cases h
    rfl
  resource?_eq := rfl
  readers_eq c := by
    rw [readers]
    cases Store.checkWritable key value <;> cases compiled filter <;> rfl
  run_eq {c s} hs hfree := by
    change (Store.write author key value filter).run s = _
    rw [Store.run_write_memory hs hfree]
    cases Store.checkWritable key value <;> cases compiled filter <;> rfl

def delete (author : Author) (key : Key) : Single (call (.delete author key)) where
  key
  draft c := Store.draftDelete author c key
  finish p := .ok p.previous
  draft_congr h := by rw [Store.draftDelete, Store.draftDelete, Collection.shown_congr_only h]
  own {c pending} h now := by
    rw [Store.draftDelete] at h
    split at h <;> cases h
    rfl
  resource?_eq := rfl
  readers_eq c := by
    rw [readers, Store.draftDelete, List.filter_cons]
    cases c.shown key <;> rfl
  run_eq {c s} hs hfree := by
    change (Store.delete author key).run s = _
    rw [Store.run_delete_memory hs hfree, Store.draftDelete]
    cases c.shown key <;> rfl

/-- **Every job on one resource has one element.** -/
theorem exists_single {r : Resource} (h : j.resource? = some r) :
    ∃ single : Single j, single.key.resource = r := by
  cases j with
  | merge r' contexts =>
    -- a merge reads the contexts of one resource, under whatever key it counts
    cases h
    refine ⟨reading r.defaultKey (fun c => .ok (Merged.ofRecords
      ((firstBy id (r.chain contexts)).filterMap c.shown))) (fun {c c'} hsame => ?_) rfl
      (fun _ => rfl) fun hs => hs.run_readMerged r contexts, rfl⟩
    -- all keys that are read belong to the resource
    have hkeys : ∀ key ∈ firstBy id (r.chain contexts), c.shown key = c'.shown key := by
      intro key hkey
      refine Collection.shown_congr_only ?_
      have hresource : key.resource = r := by
        rcases List.mem_cons.1 (mem_firstBy_id.1 hkey) with rfl | hkey
        · rfl
        · obtain ⟨context, -, rfl⟩ := List.mem_map.1 hkey
          rfl
      rw [hresource]
      exact hsame
    rw [List.filterMap_congr hkeys]
  | call call =>
    -- writes and deletions have their own key, and readings are counted under the default one
    cases call with
    | write author key value filter =>
      cases h
      exact ⟨write author key value filter, rfl⟩
    | delete author key =>
      cases h
      exact ⟨delete author key, rfl⟩
    | read key =>
      cases h
      exact ⟨reading key (fun c => .ok (c.shown key))
        (fun hsame => congrArg Except.ok (Collection.shown_congr_only hsame)) rfl (fun _ => rfl)
        fun hs => hs.run_read key, rfl⟩
    | query r' options =>
      cases h
      let answer (found : Option Predicate → List Document) : Except StoreError QueryResult := do
        let filter ← compiled options.filter
        let bounds ← (options.page.map Page.bounds).getD (.ok (0, none))
        return ⟨Store.page options bounds (found filter), (found filter).length⟩
      exact ⟨reading r.defaultKey (fun c => answer (c.newestLive r))
        (fun hsame => congrArg answer (Collection.newestLive_congr_only hsame)) rfl (fun _ => rfl)
        fun hs => hs.run_query r options, rfl⟩
    | count r' filter =>
      cases h
      let answer (found : Option Predicate → List Document) : Except StoreError Nat := do
        return (found (← compiled filter)).length
      exact ⟨reading r.defaultKey (fun c => answer (c.newestLive r))
        (fun hsame => congrArg answer (Collection.newestLive_congr_only hsame)) rfl (fun _ => rfl)
        fun hs => hs.run_count r filter, rfl⟩
    -- batches are jobs on several resources
    | bulkWrite author values => cases h
    | bulkDelete author keys => cases h
    | readMany keys => cases h

/-- **A job on another resource** does not show among the documents of this one. -/
theorem run_other (single : Single j) (hs : s.medium = .memory c none)
    (hfree : s.monitors.held = []) (hne : single.key.resource ≠ resource) :
    ∃ c₁, (j.run s).2 = { s.later (j.readers c).length with medium := .memory c₁ none } ∧
      c₁.only resource = c.only resource := by
  rw [single.run_eq hs hfree, single.readers_eq]
  cases hdraft : single.draft c with
  | answered answer =>
    -- a reading leaves everything as it is
    refine ⟨c, ?_, rfl⟩
    rw [← hs]
    rfl
  | timed pending =>
    -- a document is added to another resource
    refine ⟨_, rfl, Pending.only_commit_of_ne _ ?_⟩
    rw [single.own hdraft]
    exact hne

/-- **A job on this resource** is done in the same way over any collection with the same documents
of it. -/
theorem run_own (single : Single j) (hs : s.medium = .memory c none)
    (hs' : s'.medium = .memory c' none) (hfree : s.monitors.held = [])
    (hfree' : s'.monitors.held = [])
    (hsame : c.only single.key.resource = c'.only single.key.resource)
    (hclock : Begins s'.readings ((stamps s.readings (j.readers c)).map Prod.snd)) :
    ∃ c₁ c₁', (j.run s).2 = { s.later (j.readers c).length with medium := .memory c₁ none } ∧
      j.run s' = ((j.run s).1,
        { s'.later (j.readers c').length with medium := .memory c₁' none }) ∧
      c₁.only single.key.resource = c₁'.only single.key.resource ∧ j.readers c' = j.readers c := by
  rw [single.run_eq hs hfree, single.run_eq hs' hfree', single.readers_eq, single.readers_eq,
    ← single.draft_congr hsame]
  rw [single.readers_eq] at hclock
  -- the draft is the same in both collections, as it depends on the resource alone
  cases hdraft : single.draft c with
  | answered answer =>
    refine ⟨c, c', ?_, ?_, hsame, rfl⟩
    · rw [← hs]
      rfl
    · rw [← hs']
      rfl
  | timed pending =>
    -- it takes the same time in both, and is committed in the same way
    rw [hdraft] at hclock
    have htime : s'.readings 0 = s.readings 0 := (begins_cons.1 hclock).1
    have hown : (pending (s.readings 0)).document.key.resource = single.key.resource :=
      congrArg Key.resource (single.own hdraft _)
    rw [← hown] at hsame ⊢
    obtain ⟨hanswer, honly⟩ := Pending.commit_congr_only single.precondition hsame
    refine ⟨_, _, rfl, ?_, honly, rfl⟩
    simp only [Draft.perform, htime, hanswer]
    rfl

end Single

/-! ### What is left of a job -/

theorem left_of_resource? (resource : Resource) {j : Job} {r : Resource}
    (h : j.resource? = some r) :
    j.left resource = if r = resource then some ⟨j, id⟩ else none := by
  have hleft : j.left resource = if j.resource? = some resource then some ⟨j, id⟩ else none := by
    cases j with
    | merge r contexts => rfl
    | call call =>
      cases call with
      | bulkWrite author values => cases h
      | bulkDelete author keys => cases h
      | readMany keys => cases h
      | _ => rfl
  simp only [hleft, h, Option.some.injEq]

/-- What is left of a job over other documents of other resources, and at the times that its
elements had, is answered as before and leaves the same documents of its resource. If nothing is
left, then the job has left those documents as they were. -/
def Leaves (resource : Resource) (j : Job) (c c' : Collection) (s s' : Setting) : Prop :=
  ∃ c₁ c₁', (j.run s).2 = { s.later (j.readers c).length with medium := .memory c₁ none } ∧
    c₁.only resource = c₁'.only resource ∧
    match j.left resource with
    | none => c₁' = c' ∧ (j.readers c).filter (fun key => decide (key.resource = resource)) = []
    | some l =>
      l.1.run s' = ((j.run s).1.map l.2,
        { s'.later (l.1.readers c').length with medium := .memory c₁' none }) ∧
      l.1.readers c' = (j.readers c).filter fun key => decide (key.resource = resource)

/-- **Reading many keys** is cut down to the keys of the resource. -/
theorem leaves_readMany (hs : s.medium = .memory c none) (hs' : s'.medium = .memory c' none)
    (hsame : c.only resource = c'.only resource) (keys : List Key) :
    Leaves resource (call (.readMany keys)) c c' s s' := by
  -- the keys of the resource
  obtain ⟨own, hown⟩ : ∃ own, own = keys.filter fun key => decide (key.resource = resource) :=
    ⟨_, rfl⟩
  -- reading takes no time and changes nothing
  have hrun (keys : List Key) {c : Collection} {s : Setting} (hs : s.medium = .memory c none) :
      (call (.readMany keys)).run s = (.ok (keys.foldl (fun records key =>
        ((c.shown key).map (records.put key)).getD records) .empty),
          { s.later 0 with medium := .memory c none }) := by
    rw [← hs]
    exact (Store.shows hs).run_readMany keys
  refine ⟨c, c', ?_, hsame, ?_⟩
  · rw [hrun keys hs]
    rfl
  · rw [left]
    -- without any key of the resource the job is left out
    by_cases hnone : own = []
    · rw [← hown, if_pos hnone]
      exact ⟨rfl, rfl⟩
    · rw [← hown, if_neg hnone]
      refine ⟨?_, rfl⟩
      -- the keys that are left show the same, and the answer is cut down to them
      have hshown (key : Key) (hkey : decide (key.resource = resource) = true) :
          c.shown key = c'.shown key :=
        Collection.shown_congr_only (of_decide_eq_true hkey ▸ hsame)
      have hselected := Entries.select_foldl_put hshown keys
      rw [← hown] at hselected
      change (call (.readMany own)).run s' = _
      rw [hrun keys hs, hrun own hs']
      exact Prod.ext (congrArg Except.ok hselected.symm) rfl

section

variable (hs : s.medium = .memory c none) (hs' : s'.medium = .memory c' none)
  (hfree : s.monitors.held = []) (hfree' : s'.monitors.held = [])
  (hsame : c.only resource = c'.only resource)
include hs hs' hfree hfree' hsame

/-- **A job on one resource** is left as it is, or left out. -/
theorem leaves_of_resource? {j : Job} {r : Resource} (hr : j.resource? = some r)
    (hclock : Begins s'.readings (((stamps s.readings (j.readers c)).filter fun e =>
      decide (e.1.resource = resource)).map Prod.snd)) : Leaves resource j c c' s s' := by
  obtain ⟨single, rfl⟩ := Single.exists_single hr
  -- all that reads the clock is the element
  have hreaders : ∀ key ∈ j.readers c, key = single.key := by
    rw [single.readers_eq]
    cases single.draft c with
    | answered answer => exact fun _ h => by cases h
    | timed pending => exact fun key h => List.mem_singleton.1 h
  have hleft := left_of_resource? resource hr
  by_cases hkey : single.key.resource = resource
  · -- the job is on this resource, so all its readings of the clock are its own
    subst hkey
    rw [if_pos rfl] at hleft
    have hown : (j.readers c).filter (fun key => decide (key.resource = single.key.resource)) =
        j.readers c :=
      List.filter_eq_self.2 fun key hmem => by rw [hreaders key hmem, decide_eq_true rfl]
    have htimes : (stamps s.readings (j.readers c)).filter (fun e =>
        decide (e.1.resource = single.key.resource)) = stamps s.readings (j.readers c) := by
      refine List.filter_eq_self.2 fun e he => ?_
      have hmem : e.1 ∈ j.readers c := by
        rw [← map_fst_stamps s.readings (j.readers c)]
        exact List.mem_map_of_mem he
      rw [hreaders e.1 hmem, decide_eq_true rfl]
    rw [htimes] at hclock
    obtain ⟨c₁, c₁', hrun, hrun', honly, hsameReaders⟩ :=
      single.run_own hs hs' hfree hfree' hsame hclock
    refine ⟨c₁, c₁', hrun, honly, ?_⟩
    rw [hleft]
    refine ⟨?_, hsameReaders.trans hown.symm⟩
    have hid : (j.run s).1.map id = (j.run s).1 := by
      cases (j.run s).1 <;> rfl
    rw [hid]
    exact hrun'
  · -- on another resource: none of its readings counts here
    rw [if_neg hkey] at hleft
    obtain ⟨c₁, hrun, honly⟩ := single.run_other hs hfree hkey
    refine ⟨c₁, c', hrun, honly.trans hsame, ?_⟩
    rw [hleft]
    refine ⟨rfl, List.filter_eq_nil_iff.2 fun key hmem => ?_⟩
    simp [hreaders key hmem, hkey]

/-- **A bulk write** is cut down to the keys of the resource. -/
theorem leaves_bulkWrite (author : Author) (values : Entries Key Value)
    (hclock : Begins s'.readings (((stamps s.readings
      ((call (.bulkWrite author values)).readers c)).filter fun e =>
        decide (e.1.resource = resource)).map Prod.snd)) :
    Leaves resource (call (.bulkWrite author values)) c c' s s' := by
  obtain ⟨own, hown⟩ : ∃ own, own = values.select fun key => decide (key.resource = resource) :=
    ⟨_, rfl⟩
  -- the drafts of the resource are those that are made from its part of the values
  have hlist : own.toList = values.toList.filter fun e => decide (e.1.resource = resource) := by
    rw [hown, Entries.toList_select]
  have hdrafts : (Store.draftWrites author c values.toList).filter
      (fun e => decide (e.1.resource = resource)) = Store.draftWrites author c' own.toList := by
    rw [hlist]
    exact Store.draftWrites_filter hsame author values.toList
  have hreaders (c : Collection) (values : Entries Key Value) :
      (call (.bulkWrite author values)).readers c =
        Draft.timedKeys (Store.draftWrites author c values.toList) :=
    (Store.timedKeys_draftWrites author c values.toList).symm
  rw [hreaders] at hclock
  -- they are committed with the same times, so they end alike
  obtain ⟨hanswers, honly⟩ := Store.commitEach_fill_filter Pending.written hsame hdrafts
    (Store.own_draftWrites author c values.toList) hclock
  refine ⟨_, _, ?_, honly, ?_⟩
  · rw [hreaders]
    exact congrArg Prod.snd (Store.run_bulkWrite_drafts hs hfree author values)
  · rw [hreaders, ← Draft.timedKeys_filter, hdrafts, left]
    -- the job is left out if nothing of the resource is in it
    by_cases hnone : own.toList = []
    · rw [← hown, if_pos hnone, hnone]
      exact ⟨rfl, rfl⟩
    · have hvalues : values.toList ≠ [] := fun hvalues => hnone (by rw [hlist, hvalues]; rfl)
      rw [← hown, if_neg hnone]
      refine ⟨?_, hreaders c' own⟩
      change (Store.bulkWrite author own).run s' =
        (((Store.bulkWrite author values).run s).1.map _, _)
      rw [Store.run_bulkWrite_drafts hs hfree author values, if_neg hvalues,
        Store.run_bulkWrite_drafts hs' hfree' author own, if_neg hnone, hreaders, hanswers]
      rfl

/-- **A bulk deletion** is cut down to the keys of the resource. -/
theorem leaves_bulkDelete (author : Author) (keys : List Key)
    (hclock : Begins s'.readings (((stamps s.readings
      ((call (.bulkDelete author keys)).readers c)).filter fun e =>
        decide (e.1.resource = resource)).map Prod.snd)) :
    Leaves resource (call (.bulkDelete author keys)) c c' s s' := by
  obtain ⟨own, hown⟩ : ∃ own, own = keys.filter fun key => decide (key.resource = resource) :=
    ⟨_, rfl⟩
  -- the same for deletions, where a key that repeats does so within its resource
  have hdrafts : (Store.draftDeletes author c [] keys).filter
      (fun e => decide (e.1.resource = resource)) = Store.draftDeletes author c' [] own := by
    rw [hown]
    exact Store.draftDeletes_filter hsame author (fun _ _ => Iff.rfl) keys
  have hreaders (c : Collection) (keys : List Key) :
      (call (.bulkDelete author keys)).readers c =
        Draft.timedKeys (Store.draftDeletes author c [] keys) := by
    rw [Store.timedKeys_draftDeletes, readers]
    simp
  rw [hreaders] at hclock
  -- they end alike
  obtain ⟨hanswers, honly⟩ := Store.commitEach_fill_filter (fun p => .ok p.previous) hsame hdrafts
    (Store.own_draftDeletes author c [] keys) hclock
  refine ⟨_, _, ?_, honly, ?_⟩
  · rw [hreaders]
    exact congrArg Prod.snd (Store.run_bulkDelete_drafts hs hfree author keys)
  · rw [hreaders, ← Draft.timedKeys_filter, hdrafts, left]
    by_cases hnone : own = []
    · rw [← hown, if_pos hnone, hnone]
      exact ⟨rfl, rfl⟩
    · have hkeys : keys ≠ [] := fun hkeys => hnone (by rw [hown, hkeys]; rfl)
      rw [← hown, if_neg hnone]
      refine ⟨?_, hreaders c' own⟩
      change (Store.bulkDelete author own).run s' =
        (((Store.bulkDelete author keys).run s).1.map _, _)
      rw [Store.run_bulkDelete_drafts hs hfree author keys, if_neg hkeys,
        Store.run_bulkDelete_drafts hs' hfree' author own, if_neg hnone, hreaders, hanswers]
      rfl

/-- **One job** among others. -/
theorem leaves (j : Job)
    (hclock : Begins s'.readings (((stamps s.readings (j.readers c)).filter fun e =>
      decide (e.1.resource = resource)).map Prod.snd)) : Leaves resource j c c' s s' := by
  cases j with
  | merge r contexts => exact leaves_of_resource? hs hs' hfree hfree' hsame rfl hclock
  | call call =>
    cases call with
    | bulkWrite author values =>
      exact leaves_bulkWrite hs hs' hfree hfree' hsame author values hclock
    | bulkDelete author keys => exact leaves_bulkDelete hs hs' hfree hfree' hsame author keys hclock
    | readMany keys => exact leaves_readMany hs hs' hsame keys
    | _ => exact leaves_of_resource? hs hs' hfree hfree' hsame rfl hclock

end

/-- A job reads the clock once for each of its readers. -/
theorem run_snd (hs : s.medium = .memory c none) (hfree : s.monitors.held = []) (j : Job) :
    ∃ c₁, (j.run s).2 = { s.later (j.readers c).length with medium := .memory c₁ none } := by
  -- what is left of the job is of no interest here
  let resource : Resource := ⟨"", "", ""⟩
  obtain ⟨readings, hclock⟩ := exists_begins (((stamps s.readings (j.readers c)).filter fun e =>
    decide (e.1.resource = resource)).map Prod.snd)
  let s' : Setting := { s with readings }
  have hs' : s'.medium = .memory c none := hs
  obtain ⟨c₁, -, hrun, -⟩ := leaves hs hs' hfree hfree rfl j hclock
  exact ⟨c₁, hrun⟩

/-! ### Runs -/

/-- What is left of jobs for one resource is answered as it is among all of them, stores the same
documents of the resource, and is shown the same times. The times are all that the clock shows. -/
structure Apart (resource : Resource) (jobs : List Job) (s s' : Setting) : Prop where
  answers : (runAll (jobs.filterMap (left? resource)) s').1 =
    (runAll jobs s).1.filterMap (Answered.left? resource)
  documents : (runAll (jobs.filterMap (left? resource)) s').2.medium.documents.filter
      (fun d => decide (d.key.resource = resource)) =
    (runAll jobs s).2.medium.documents.filter fun d => decide (d.key.resource = resource)
  timings : timings (jobs.filterMap (left? resource)) s' =
    (timings jobs s).filter fun e => decide (e.1.resource = resource)
  readings : ∀ n, (runAll jobs s).2.readings n = s.readings (n + (Job.timings jobs s).length)

namespace Apart

variable {j : Job} {rest : List Job}

theorem nil (hs : s.medium = .memory c none) (hs' : s'.medium = .memory c' none)
    (hsame : c.only resource = c'.only resource) : Apart resource [] s s' where
  answers := rfl
  documents := by
    change s'.medium.documents.filter _ = s.medium.documents.filter _
    rw [hs, hs']
    exact congrArg Collection.documents hsame.symm
  timings := rfl
  readings _ := rfl

/-- The times of a job come before those of the jobs behind it. -/
theorem readings_cons (h : ∀ n, (runAll rest (j.run s).2).2.readings n =
      (j.run s).2.readings (n + (Job.timings rest (j.run s).2).length))
    (hnext : ∀ n, (j.run s).2.readings n =
      s.readings (n + (j.readers s.medium.collection).length)) (n : Nat) :
    (runAll (j :: rest) s).2.readings n = s.readings (n + (Job.timings (j :: rest) s).length) := by
  -- the job reads as often as it has readers
  have hlength : (Job.timings (j :: rest) s).length =
      (j.readers s.medium.collection).length + (Job.timings rest (j.run s).2).length := by
    have hstamps := congrArg List.length
      (map_fst_stamps s.readings (j.readers s.medium.collection))
    rw [List.length_map] at hstamps
    rw [Job.timings, List.length_append, hstamps]
  calc
    (runAll (j :: rest) s).2.readings n
      = (j.run s).2.readings (n + (Job.timings rest (j.run s).2).length) := h n
    _ = s.readings (n + (Job.timings rest (j.run s).2).length +
          (j.readers s.medium.collection).length) := hnext _
    _ = s.readings (n + (Job.timings (j :: rest) s).length) := by
      rw [hlength, Nat.add_assoc, Nat.add_comm (j.readers s.medium.collection).length]

/-- A job that is left out. -/
theorem cons_none (h : Apart resource rest (j.run s).2 s') (hleft : j.left resource = none)
    (hnone : (stamps s.readings (j.readers s.medium.collection)).filter
      (fun e => decide (e.1.resource = resource)) = [])
    (hnext : ∀ n, (j.run s).2.readings n =
      s.readings (n + (j.readers s.medium.collection).length)) :
    Apart resource (j :: rest) s s' := by
  -- neither the job nor its answer is left
  have hjobs : (j :: rest).filterMap (left? resource) = rest.filterMap (left? resource) :=
    List.filterMap_cons_none (by rw [left?, hleft]; rfl)
  have houtcome : Answered.left? resource ⟨j, (j.run s).1⟩ = none := by
    rw [Answered.left?, hleft]
    rfl
  refine ⟨?_, ?_, ?_, readings_cons h.readings hnext⟩
  · rw [hjobs, h.answers]
    exact (List.filterMap_cons_none houtcome).symm
  · rw [hjobs, h.documents]
    rfl
  · rw [hjobs, h.timings, Job.timings, List.filter_append, hnone, List.nil_append]

/-- A job that is left, with the times that it had. -/
theorem cons_some {l : (j' : Job) × (j.Answer → j'.Answer)}
    (h : Apart resource rest (j.run s).2 (l.1.run s').2) (hleft : j.left resource = some l)
    (hanswer : (l.1.run s').1 = (j.run s).1.map l.2)
    (hstamps : stamps s'.readings (l.1.readers s'.medium.collection) =
      (stamps s.readings (j.readers s.medium.collection)).filter
        fun e => decide (e.1.resource = resource))
    (hnext : ∀ n, (j.run s).2.readings n =
      s.readings (n + (j.readers s.medium.collection).length)) :
    Apart resource (j :: rest) s s' := by
  have hjobs : (j :: rest).filterMap (left? resource) =
      l.1 :: rest.filterMap (left? resource) :=
    List.filterMap_cons_some (by rw [left?, hleft]; rfl)
  have houtcome : Answered.left? resource ⟨j, (j.run s).1⟩ = some ⟨l.1, (l.1.run s').1⟩ := by
    rw [Answered.left?, hleft, hanswer]
    rfl
  refine ⟨?_, ?_, ?_, readings_cons h.readings hnext⟩
  · rw [hjobs]
    exact (congrArg (_ :: ·) h.answers).trans (List.filterMap_cons_some houtcome).symm
  · rw [hjobs]
    exact h.documents
  · rw [hjobs, Job.timings, hstamps, h.timings, Job.timings, List.filter_append]

end Apart

/-- **What one resource is answered does not depend on the others.** If all jobs on other resources
are left out, jobs on many keys are cut down to those of the resource, and each element that is left
is shown the time that it was shown before, then what is left is answered as before, and the same
documents of the resource are stored. So it is whatever there is of other resources, before or
between. -/
theorem runAll_left (hs : s.medium = .memory c none) (hs' : s'.medium = .memory c' none)
    (hfree : s.monitors.held = []) (hfree' : s'.monitors.held = []) (resource : Resource)
    (hsame : c.only resource = c'.only resource) (jobs : List Job)
    (hclock : Begins s'.readings (((timings jobs s).filter fun e =>
      decide (e.1.resource = resource)).map Prod.snd)) :
    Apart resource jobs s s' := by
  induction jobs generalizing s s' c c' with
  | nil => exact .nil hs hs' hsame
  | cons j rest ih =>
    have hc : s.medium.collection = c := by rw [hs]; rfl
    have hc' : s'.medium.collection = c' := by rw [hs']; rfl
    rw [timings, hc, List.filter_append, List.map_append, begins_append, List.length_map,
      length_filter_stamps s.readings (j.readers c)
        fun key => decide (key.resource = resource)] at hclock
    -- the clock shows the first job its own times, and then those of the others
    obtain ⟨hfirst, hrest⟩ := hclock
    obtain ⟨c₁, c₁', hrun, honly, hleft⟩ := leaves hs hs' hfree hfree' hsame j hfirst
    have hmedium : (j.run s).2.medium = .memory c₁ none := by rw [hrun]
    have hmonitors : (j.run s).2.monitors.held = [] := by rw [hrun]; exact hfree
    have hnext (n : Nat) : (j.run s).2.readings n =
        s.readings (n + (j.readers s.medium.collection).length) := by rw [hrun, hc]; rfl
    have hstamps := stamps_filter (j.readers c) (fun key => decide (key.resource = resource)) hfirst
    cases hl : j.left resource with
    | none =>
      -- nothing is left, and no element of the resource reads the clock
      rw [hl] at hleft
      obtain ⟨rfl, hnone⟩ := hleft
      rw [hnone] at hrest hstamps
      refine .cons_none (ih hmedium hs' hmonitors hfree' honly hrest) hl ?_ hnext
      rw [hc]
      exact hstamps.symm
    | some l =>
      rw [hl] at hleft
      -- the job that is left takes as many times as it did, so the others find theirs behind it
      obtain ⟨hrun', hreaders⟩ := hleft
      have hmedium' : (l.1.run s').2.medium = .memory c₁' none := by rw [hrun']
      have hmonitors' : (l.1.run s').2.monitors.held = [] := by rw [hrun']; exact hfree'
      refine .cons_some (ih hmedium hmedium' hmonitors hmonitors' honly ?_) hl ?_ ?_ hnext
      · rw [hrun', hreaders]
        exact hrest
      · rw [hrun']
      · rw [hc, hc', hreaders]
        exact hstamps

theorem runAll_left_mixed :
    let resource : Resource := ⟨"rules", "alerting", "tenant-1"⟩
    let other : Resource := ⟨"rules", "alerting", "tenant-2"⟩
    let c := Collection.both (.first resource.defaultKey (.bool true) 0)
      (.first other.defaultKey (.bool true) 0)
    let s : Setting := ⟨.memory c none, fun n => .ofNat (1000 * n), {}, ⟨1, []⟩⟩
    let ada : Author := ⟨"ada", "ada@example.com"⟩
    let values : Entries Key Value :=
      ⟨[(other.key "a", .bool true), (resource.key "a", .bool false)], by decide⟩
    let jobs := [call (.delete ada other.defaultKey), call (.bulkWrite ada values),
      call (.write ada resource.defaultKey (.bool false) none), merge resource ["a"]]
    timings jobs s = [(other.defaultKey, 0), (other.key "a", 1000), (resource.key "a", 2000),
        (resource.defaultKey, 3000)] ∧
      Apart resource jobs s (s.later 2) := by
  intro resource other c s ada values jobs
  have hreaders : (call (.delete ada other.defaultKey)).readers c = [other.defaultKey] := by
    have hshown : c.shown other.defaultKey = some (.first other.defaultKey (.bool true) 0) := by
      rw [Collection.shown_both (by decide) rfl rfl]
      rfl
    rw [readers, List.filter_cons, hshown]
    rfl
  -- the first two jobs read the clock once and twice
  obtain ⟨c₁, hdelete⟩ := run_snd (s := s) rfl rfl (call (.delete ada other.defaultKey))
  obtain ⟨c₂, hbulk⟩ := run_snd (s := { s.later 1 with medium := .memory c₁ none }) rfl rfl
    (call (.bulkWrite ada values))
  rw [hreaders] at hdelete
  have htimings : timings jobs s = [(other.defaultKey, 0), (other.key "a", 1000),
      (resource.key "a", 2000), (resource.defaultKey, 3000)] := by
    change stamps s.readings ((call (.delete ada other.defaultKey)).readers c) ++ timings _ _ = _
    rw [hreaders, hdelete]
    change _ ++ (_ ++ timings _ ((call (.bulkWrite ada values)).run
      { s.later 1 with medium := .memory c₁ none }).2) = _
    rw [hbulk]
    rfl
  refine ⟨htimings, runAll_left rfl rfl rfl rfl resource rfl jobs ?_⟩
  rw [htimings]
  exact begins_cons.2 ⟨rfl, begins_cons.2 ⟨rfl, fun _ _ h => by cases h⟩⟩

end Job
end ConfigLedger
