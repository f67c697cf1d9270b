import AnarchNet.Frontend.Ppm
import Mathlib.Data.Fintype.Basic

/-!
# When updating a repository completes

Every source whose master list has been processed stores the repository and calls the callback, and
a source whose list is empty, or has an entry with an empty list of resources, never comes to an
end. `completes_iff` says for which repositories the callback is called once and at the right time.
-/

namespace AnarchNet.Ppm.Update

open FileSystem AsyncQueue

variable {update : Update}

/-! ## What an answer can do -/

/-- The outcomes of the work on an entry, for each thing that it waits for. -/
inductive Worked (update : Update) : Work → Outcome → Prop
  | notFound {item : Item} (hinfo : update.database.appinfo item.info = none) :
      Worked update (.fetching item) .failed
  | found {item : Item} {info : AppInfo} (hinfo : update.database.appinfo item.info = some info) :
      Worked update (.fetching item) (.working (.loadingCode (update.newPackage item info) info
        (ofTasks 1 id (info.code.map Prod.fst))))
  | code {pack : Package} {info : AppInfo} {cq : AsyncQueue Bytes Bytes} {request : Nat}
      {ctask : Bytes} (htask : cq.active[request]? = some ctask)
      (hmore : (cq.finish 1 id request).drained = false) :
      Worked update (.loadingCode pack info cq)
        (.working (.loadingCode (update.addCode pack info ctask) info (cq.finish 1 id request)))
  | lastCode {pack : Package} {info : AppInfo} {cq : AsyncQueue Bytes Bytes} {request : Nat}
      {ctask : Bytes} (htask : cq.active[request]? = some ctask) :
      Worked update (.loadingCode pack info cq)
        (.working (loadResources (update.addCode pack info ctask) info))
  | resource {pack : Package} {lrq : AsyncQueue Resource Resource} {request : Nat}
      {lrtask : Resource} (htask : lrq.active[request]? = some lrtask)
      (hmore : (lrq.finish 2 id request).drained = false) :
      Worked update (.storingResources pack lrq)
        (.working (.storingResources pack (lrq.finish 2 id request)))
  | lastResource {pack : Package} {lrq : AsyncQueue Resource Resource} {request : Nat}
      {lrtask : Resource} (htask : lrq.active[request]? = some lrtask) :
      Worked update (.storingResources pack lrq) (.working (.saving pack))
  | resourceThrown {pack : Package} {lrq : AsyncQueue Resource Resource} {request : Nat}
      {lrtask : Resource} (htask : lrq.active[request]? = some lrtask)
      (hmap : update.database.storeMap (resourceMap pack lrtask) = false) :
      Worked update (.storingResources pack lrq) .thrown
  | saved {pack : Package} {id : Bytes} (hid : update.database.storePackage pack = some id) :
      Worked update (.saving pack) (.saved { name := pack.name, id := id })
  | thrown {pack : Package} (hid : update.database.storePackage pack = none) :
      Worked update (.saving pack) .thrown

/-- The work on an entry has one of these outcomes. -/
theorem worked_of_workOn {request : Nat} {work : Work} {outcome : Outcome}
    (h : update.workOn request work = some outcome) : Worked update work outcome := by
  cases work with
  | fetching item =>
      rw [workOn, Option.ite_none_left_eq_some] at h
      cases hinfo : update.database.appinfo item.info with
      | none =>
          simp only [hinfo, Option.some.injEq] at h
          exact h.2 ▸ .notFound hinfo
      | some info =>
          simp only [hinfo, Option.some.injEq] at h
          exact h.2 ▸ .found hinfo
  | loadingCode pack info cq =>
      obtain ⟨ctask, htask, rfl⟩ := Option.map_eq_some_iff.1 h
      cases hdrained : (cq.finish 1 id request).drained with
      | false => simpa only [hdrained, Bool.false_eq_true, if_false] using .code htask hdrained
      | true => simpa only [hdrained, if_true] using .lastCode htask
  | storingResources pack lrq =>
      obtain ⟨lrtask, htask, rfl⟩ := Option.map_eq_some_iff.1 h
      cases hmap : update.database.storeMap (resourceMap pack lrtask) with
      | false => simpa only [hmap, Bool.false_eq_true, if_false] using .resourceThrown htask hmap
      | true =>
          cases hdrained : (lrq.finish 2 id request).drained with
          | false =>
              simpa only [hmap, hdrained, Bool.false_eq_true, if_false, if_true] using
                .resource htask hdrained
          | true => simpa only [hmap, hdrained, if_true] using .lastResource htask
  | saving pack =>
      rw [workOn, Option.ite_none_left_eq_some] at h
      cases hid : update.database.storePackage pack with
      | none =>
          simp only [hid, Option.some.injEq] at h
          exact h.2 ▸ .thrown hid
      | some id =>
          simp only [hid, Option.some.injEq] at h
          exact h.2 ▸ .saved hid
  | stopped => cases h

/-- What an answer makes of a source and of what the sources share. -/
inductive Answered (update : Update) (shared : Shared) : Source → Source × Shared → Prop
  | notFound {source : Bytes} (hlist : update.database.masterlist source = none) :
      Answered update shared (.fetching source)
        (.abandoned, { shared with calls := shared.calls ++ [.masterListNotFound] })
  | found {source : Bytes} {masterlist : List Item}
      (hlist : update.database.masterlist source = some masterlist) :
      Answered update shared (.fetching source)
        (.loading (ofTasks 1 .fetching masterlist), shared)
  | worked {q : AsyncQueue Item Work} {worker : Nat} {work : Work} {outcome : Outcome}
      (hwork : q.active[worker]? = some work) (hworked : Worked update work outcome) :
      Answered update shared (.loading q) (settle q worker shared outcome)
  | stored {sent : List Entry} (hstored : update.database.storeRepo sent = true) :
      Answered update shared (.storing sent)
        (.finished, { shared with calls := shared.calls ++ [.stored shared.packages] })
  | thrown {sent : List Entry} (hstored : update.database.storeRepo sent = false) :
      Answered update shared (.storing sent) (.storing sent, { shared with thrown := true })

/-- An answer is one of these, and comes while nothing was thrown. -/
theorem answered_of_answer {reply : Reply} {source : Source} {shared : Shared}
    {next : Source × Shared} (h : update.answer reply source shared = some next) :
    shared.thrown = false ∧ Answered update shared source next := by
  rw [answer.eq_def, Option.ite_none_left_eq_some, Bool.not_eq_true] at h
  refine ⟨h.1, ?_⟩
  obtain ⟨-, h⟩ := h
  cases source with
  | fetching source =>
      simp only [Option.ite_none_left_eq_some] at h
      cases hlist : update.database.masterlist source with
      | none =>
          simp only [hlist, Option.some.injEq] at h
          exact h.2 ▸ .notFound hlist
      | some masterlist =>
          simp only [hlist, Option.some.injEq] at h
          exact h.2 ▸ .found hlist
  | loading q =>
      obtain ⟨work, hwork, h⟩ := Option.bind_eq_some_iff.1 h
      obtain ⟨outcome, houtcome, h⟩ := Option.bind_eq_some_iff.1 h
      rw [← Option.some.inj h]
      exact .worked hwork (worked_of_workOn houtcome)
  | storing sent =>
      simp only [Option.ite_none_left_eq_some] at h
      cases hstored : update.database.storeRepo sent with
      | false =>
          simp only [hstored, Bool.false_eq_true, if_false, Option.some.injEq] at h
          exact h.2 ▸ .thrown hstored
      | true =>
          simp only [hstored, if_true, Option.some.injEq] at h
          exact h.2 ▸ .stored hstored
  | finished => cases h
  | abandoned => cases h

/-! ## Every run ends -/

variable (update)

/-- The answers that an entry needs at most. -/
def itemSize (item : Item) : Nat :=
  match update.database.appinfo item.info with
  | none => 1
  | some info => info.code.length + (info.resources.getD []).length + 2

/-- The answers that the work on an entry still needs at most. -/
def workSize : Work → Nat
  | .fetching item => update.itemSize item
  | .loadingCode _ info cq => cq.size + (info.resources.getD []).length + 1
  | .storingResources _ lrq => lrq.size + 1
  | .saving _ => 1
  | .stopped => 0

/-- The answers that a source still needs at most. -/
def sourceSize : Source → Nat
  | .fetching source =>
      match update.database.masterlist source with
      | none => 1
      | some masterlist => (masterlist.map update.itemSize).sum + 2
  | .loading q => q.weight update.itemSize update.workSize + 1
  | .storing _ => 1
  | .finished => 0
  | .abandoned => 0

/-- An exception is the last thing that happens. -/
def sharedSize (shared : Shared) : Nat := (!shared.thrown).toNat

variable {update}

/-- The resources need as many answers as there are, and then the package needs one. -/
theorem workSize_loadResources (pack : Package) (info : AppInfo) :
    update.workSize (loadResources pack info) = (info.resources.getD []).length + 1 := by
  unfold loadResources
  cases hresources : info.resources with
  | none => rfl
  | some resources => simp [workSize]

/-- An answer brings the work on an entry forward. -/
theorem Worked.size_lt {work : Work} {outcome : Outcome} (h : Worked update work outcome) :
    match outcome with
    | .working next => update.workSize next < update.workSize work
    | .thrown => True
    | _ => 0 < update.workSize work := by
  cases h with
  | notFound hinfo => simp [workSize, itemSize, hinfo]
  | found hinfo => simp [workSize, itemSize, hinfo]
  | code htask hmore =>
      have hsize := size_finish 1 id htask
      simp only [workSize]
      omega
  | lastCode htask =>
      have hsize := size_finish 1 id htask
      simp only [workSize_loadResources]
      simp only [workSize]
      omega
  | resource htask hmore =>
      have hsize := size_finish 2 id htask
      simp only [workSize]
      omega
  | lastResource htask =>
      have hsize := size_finish 2 id htask
      simp only [workSize]
      omega
  | resourceThrown htask hmap => trivial
  | saved hid => simp [workSize]
  | thrown hid => trivial

/-- An answer brings a source forward. -/
theorem Answered.size_lt {source : Source} {shared : Shared} {next : Source × Shared}
    (h : Answered update shared source next) (hthrown : shared.thrown = false) :
    update.sourceSize next.1 + sharedSize next.2 <
      update.sourceSize source + sharedSize shared := by
  cases h with
  | notFound hlist => simp [sourceSize, sharedSize, hlist]
  | found hlist =>
      have hweight : ∀ tasks, (ofTasks 1 Work.fetching tasks).weight update.itemSize
          update.workSize = (tasks.map update.itemSize).sum :=
        weight_ofTasks 1 Work.fetching fun _ => rfl
      simp [sourceSize, sharedSize, hlist, hweight]
  | @worked q worker work outcome hwork hworked =>
      have hsize := hworked.size_lt
      cases outcome with
      | working next =>
          have hweight := weight_goOn update.itemSize update.workSize next hwork
          simp only [settle, sourceSize]
          omega
      | saved entry =>
          have hweight := weight_finish 1 Work.fetching update.itemSize update.workSize
            (fun _ => rfl) hwork
          simp only [settle, sharedSize]
          split
          · simp only [sourceSize]
            omega
          · simp only [sourceSize]
            omega
      | failed =>
          have hweight := weight_goOn update.itemSize update.workSize .stopped hwork
          simp only [settle, sharedSize, sourceSize, workSize] at *
          omega
      | thrown => simp [settle, sharedSize, hthrown]
  | stored hstored => simp [sourceSize, sharedSize]
  | thrown hstored => simp [sourceSize, sharedSize, hthrown]

/-- The answers of an update shrink what is left of it. -/
theorem shrinks_answer (update : Update) :
    Members.Shrinks update.answer update.sourceSize sharedSize := by
  intro reply source shared source' shared' h
  obtain ⟨hthrown, hanswered⟩ := answered_of_answer h
  exact hanswered.size_lt hthrown

/-! ## Entries that come to an end and entries that do not -/

variable (update)

/-- The calls of the database for a repository succeed, and every app has code. -/
structure Succeeds : Prop where
  masterlist : ∀ source ∈ update.repo.sources, ∃ masterlist,
    update.database.masterlist source = some masterlist ∧ ∀ item ∈ masterlist,
      ∃ info, update.database.appinfo item.info = some info ∧ info.code ≠ []
  storeMap : ∀ map, update.database.storeMap map = true
  storePackage : ∀ pack, update.database.storePackage pack ≠ none
  storeRepo : ∀ packages, update.database.storeRepo packages = true

/-- The app of an entry is found, and has code. -/
def Found (item : Item) : Prop :=
  ∃ info, update.database.appinfo item.info = some info ∧ info.code ≠ []

/-- The app of an entry has an empty list of resources. -/
def Stalls (item : Item) : Prop :=
  ∃ info, update.database.appinfo item.info = some info ∧ info.resources = some []

/-- The queue of a source drains: it has entries, and none of them stalls. -/
def Drains (source : Bytes) : Prop :=
  ∃ masterlist, update.database.masterlist source = some masterlist ∧ masterlist ≠ [] ∧
    ∀ item ∈ masterlist, ¬ update.Stalls item

/-- Work that waits for an answer and will come to an end. -/
def Live : Work → Prop
  | .fetching item => update.Found item ∧ ¬ update.Stalls item
  | .loadingCode _ info cq => cq.active ≠ [] ∧ info.resources ≠ some []
  | .storingResources _ lrq => lrq.active ≠ []
  | .saving _ => True
  | .stopped => False

/-- Work that will not come to an end. -/
def Doomed : Work → Prop
  | .fetching item => update.Stalls item
  | .loadingCode _ info _ => info.resources = some []
  | .storingResources _ lrq => lrq.size = 0
  | .saving _ => False
  | .stopped => False

/-- Work that has not failed and will not. -/
def Sound : Work → Prop
  | .fetching item => update.Found item
  | .stopped => False
  | _ => True

variable {update}

/-- A queue that was given tasks has some under way. -/
theorem active_ofTasks_ne_nil {τ ω : Type} {limit : Nat} {start : τ → ω} {tasks : List τ}
    (hlimit : 0 < limit) (h : tasks ≠ []) : (ofTasks limit start tasks).active ≠ [] :=
  active_fill_ne_nil limit start hlimit (by simpa [size] using h)

/-- A queue that has not drained has tasks under way when a worker has called back. -/
theorem active_finish_ne_nil {τ ω : Type} {limit index : Nat} {start : τ → ω}
    {queue : AsyncQueue τ ω} (hlimit : 0 < limit)
    (h : (queue.finish limit start index).drained = false) :
    (queue.finish limit start index).active ≠ [] := by
  rw [drained_eq_false_iff, finish, size_fill] at h
  exact active_fill_ne_nil limit start hlimit h

/-- The first worker of a queue with some under way. -/
theorem exists_active {τ ω : Type} {queue : AsyncQueue τ ω} (h : queue.active ≠ []) :
    ∃ worker, queue.active[0]? = some worker := by
  cases hactive : queue.active with
  | nil => exact absurd hactive h
  | cons worker rest => exact ⟨worker, rfl⟩

/-- Live work goes on or its package is stored. -/
theorem Worked.live (hsucceeds : update.Succeeds) {work : Work} {outcome : Outcome}
    (h : Worked update work outcome) (hlive : update.Live work) :
    (∃ next, outcome = .working next ∧ update.Live next) ∨ ∃ entry, outcome = .saved entry := by
  cases h with
  | notFound hinfo =>
      obtain ⟨⟨info, hfound, -⟩, -⟩ := hlive
      rw [hinfo] at hfound
      cases hfound
  | @found item info hinfo =>
      obtain ⟨⟨found, hfound, hcode⟩, hstalls⟩ := hlive
      obtain rfl : info = found := Option.some.inj (hinfo.symm.trans hfound)
      exact .inl ⟨_, rfl, active_ofTasks_ne_nil Nat.one_pos (by simpa using hcode),
        fun hresources => hstalls ⟨info, hinfo, hresources⟩⟩
  | code htask hmore => exact .inl ⟨_, rfl, active_finish_ne_nil Nat.one_pos hmore, hlive.2⟩
  | @lastCode pack info cq request ctask htask =>
      refine .inl ⟨_, rfl, ?_⟩
      unfold loadResources
      cases hresources : info.resources with
      | none => trivial
      | some resources =>
          exact active_ofTasks_ne_nil Nat.two_pos fun hnil =>
            hlive.2 (hresources.trans (congrArg some hnil))
  | resource htask hmore => exact .inl ⟨_, rfl, active_finish_ne_nil Nat.two_pos hmore⟩
  | lastResource htask => exact .inl ⟨_, rfl, trivial⟩
  | resourceThrown htask hmap =>
      rw [hsucceeds.storeMap] at hmap
      cases hmap
  | saved hid => exact .inr ⟨_, rfl⟩
  | thrown hid => exact absurd hid (hsucceeds.storePackage _)

/-- Live work waits for an answer. -/
theorem exists_workOn_of_live {work : Work} (h : update.Live work) :
    ∃ request outcome, update.workOn request work = some outcome := by
  suffices hsome : ∃ request, (update.workOn request work).isSome = true by
    obtain ⟨request, hsome⟩ := hsome
    exact ⟨request, Option.isSome_iff_exists.1 hsome⟩
  refine ⟨0, ?_⟩
  cases work with
  | fetching item =>
      obtain ⟨⟨info, hinfo, -⟩, -⟩ := h
      simp [workOn, hinfo]
  | loadingCode pack info cq =>
      obtain ⟨ctask, htask⟩ := exists_active h.1
      simp [workOn, htask]
  | storingResources pack lrq =>
      obtain ⟨lrtask, htask⟩ := exists_active h
      simp [workOn, htask]
  | saving pack => cases hid : update.database.storePackage pack <;> simp [workOn, hid]
  | stopped => exact h.elim

/-- Doomed work goes on for ever. -/
theorem Worked.doomed {work : Work} {outcome : Outcome} (h : Worked update work outcome)
    (hdoomed : update.Doomed work) : ∃ next, outcome = .working next ∧ update.Doomed next := by
  cases h with
  | notFound hinfo =>
      obtain ⟨info, hfound, -⟩ := hdoomed
      rw [hinfo] at hfound
      cases hfound
  | @found item info hinfo =>
      obtain ⟨found, hfound, hresources⟩ := hdoomed
      obtain rfl : info = found := Option.some.inj (hinfo.symm.trans hfound)
      exact ⟨_, rfl, hresources⟩
  | code htask hmore => exact ⟨_, rfl, hdoomed⟩
  | @lastCode pack info cq request ctask htask =>
      refine ⟨_, rfl, ?_⟩
      rw [loadResources, show info.resources = some [] from hdoomed]
      rfl
  | resource htask hmore =>
      have hsize := size_finish 2 id htask
      simp only [Doomed] at hdoomed
      omega
  | lastResource htask =>
      have hsize := size_finish 2 id htask
      simp only [Doomed] at hdoomed
      omega
  | resourceThrown htask hmap =>
      have hsize := size_finish 2 id htask
      simp only [Doomed] at hdoomed
      omega
  | saved hid => exact hdoomed.elim
  | thrown hid => exact hdoomed.elim

/-- Sound work does not fail. -/
theorem Worked.sound (hsucceeds : update.Succeeds) {work : Work} {outcome : Outcome}
    (h : Worked update work outcome) (hsound : update.Sound work) :
    (∃ next, outcome = .working next ∧ update.Sound next) ∨ ∃ entry, outcome = .saved entry := by
  cases h with
  | notFound hinfo =>
      obtain ⟨info, hfound, -⟩ := hsound
      rw [hinfo] at hfound
      cases hfound
  | lastCode htask =>
      refine .inl ⟨_, rfl, ?_⟩
      unfold loadResources
      split <;> trivial
  | resourceThrown htask hmap =>
      rw [hsucceeds.storeMap] at hmap
      cases hmap
  | saved hid => exact .inr ⟨_, rfl⟩
  | thrown hid => exact absurd hid (hsucceeds.storePackage _)
  | _ => exact .inl ⟨_, rfl, trivial⟩

/-! ## Sources that come to an end and sources that do not -/

variable (update)

/-- A source that waits for an answer and will come to an end. -/
def Going (source : Source) (shared : Shared) : Prop :=
  shared.thrown = false ∧
    match source with
    | .fetching source => source ∈ update.repo.sources ∧ update.Drains source
    | .loading q => q.active ≠ [] ∧ (∀ item ∈ q.waiting, update.Found item ∧ ¬ update.Stalls item) ∧
        ∀ work ∈ q.active, update.Live work
    | .storing _ => True
    | .finished => False
    | .abandoned => False

/-- A source that will not come to an end. -/
def Blocked : Source → Prop
  | .fetching source => source ∈ update.repo.sources ∧ ¬ update.Drains source
  | .loading q => (∀ item ∈ q.waiting, update.Found item) ∧ (∀ work ∈ q.active, update.Sound work) ∧
      (q.size = 0 ∨ (∃ item ∈ q.waiting, update.Stalls item) ∨
        ∃ work ∈ q.active, update.Doomed work)
  | .storing _ => False
  | .finished => False
  | .abandoned => False

variable {update} {source : Source} {shared : Shared} {next : Source × Shared}

/-- A source that comes to an end goes on or calls the callback with the repository. -/
theorem Answered.going (hsucceeds : update.Succeeds) (h : Answered update shared source next)
    (hgoing : update.Going source shared) :
    (next.2.calls = shared.calls ∧ update.Going next.1 next.2) ∨
      next = (.finished, { shared with calls := shared.calls ++ [.stored shared.packages] }) := by
  obtain ⟨hthrown, hgoing⟩ := hgoing
  cases h with
  | notFound hlist =>
      obtain ⟨-, masterlist, hfound, -⟩ := hgoing
      rw [hlist] at hfound
      cases hfound
  | @found source masterlist hlist =>
      obtain ⟨hsource, found, hfound, hne, hstalls⟩ := hgoing
      obtain rfl : masterlist = found := Option.some.inj (hlist.symm.trans hfound)
      obtain ⟨other, hother, hitems⟩ := hsucceeds.masterlist source hsource
      obtain rfl : masterlist = other := Option.some.inj (hlist.symm.trans hother)
      exact .inl ⟨rfl, hthrown, active_ofTasks_ne_nil Nat.one_pos hne,
        forall_fill 1 Work.fetching (fun item hitem => hitem)
          (fun item hitem => ⟨hitems item hitem, hstalls item hitem⟩) (by simp)⟩
  | @worked q worker work outcome hwork hworked =>
      obtain ⟨hactive, hwaiting, hlive⟩ := hgoing
      rcases hworked.live hsucceeds (hlive work (List.mem_of_getElem? hwork)) with
        ⟨work', rfl, hnext⟩ | ⟨entry, rfl⟩
      · exact .inl ⟨rfl, hthrown, by simpa [goOn] using hactive, hwaiting, forall_goOn hnext hlive⟩
      · refine .inl ⟨rfl, hthrown, ?_⟩
        simp only [settle]
        cases hdrained : (q.finish 1 Work.fetching worker).drained with
        | true => trivial
        | false =>
            exact ⟨active_finish_ne_nil Nat.one_pos hdrained,
              forall_finish 1 Work.fetching (fun item hitem => hitem) hwaiting hlive⟩
  | stored hstored => exact .inr rfl
  | thrown hstored =>
      rw [hsucceeds.storeRepo] at hstored
      cases hstored

/-- A source that comes to an end waits for an answer. -/
theorem exists_answer_of_going (h : update.Going source shared) :
    ∃ reply source' shared', update.answer reply source shared = some (source', shared') := by
  suffices hsome : ∃ reply, (update.answer reply source shared).isSome = true by
    obtain ⟨reply, hsome⟩ := hsome
    obtain ⟨⟨source', shared'⟩, hanswer⟩ := Option.isSome_iff_exists.1 hsome
    exact ⟨reply, source', shared', hanswer⟩
  obtain ⟨hthrown, h⟩ := h
  cases source with
  | fetching source =>
      obtain ⟨-, masterlist, hlist, -⟩ := h
      exact ⟨⟨0, 0⟩, by simp [answer, hthrown, hlist]⟩
  | loading q =>
      obtain ⟨work, hwork⟩ := exists_active h.1
      obtain ⟨request, outcome, houtcome⟩ :=
        exists_workOn_of_live (h.2.2 work (List.mem_of_getElem? hwork))
      exact ⟨⟨0, request⟩, by simp [answer, hthrown, hwork, houtcome]⟩
  | storing sent =>
      refine ⟨⟨0, 0⟩, ?_⟩
      cases hstored : update.database.storeRepo sent <;> simp [answer, hthrown, hstored]
  | finished => exact h.elim
  | abandoned => exact h.elim

/-- An answer that a source waits for calls the callback, or the source will come to an end after
it. -/
theorem exists_going_answer (hsucceeds : update.Succeeds) (h : update.Going source shared) :
    ∃ reply source' shared', update.answer reply source shared = some (source', shared') ∧
      (shared'.calls ≠ shared.calls ∨ update.Going source' shared') := by
  obtain ⟨reply, source', shared', hanswer⟩ := exists_answer_of_going h
  refine ⟨reply, source', shared', hanswer, ?_⟩
  rcases (answered_of_answer hanswer).2.going hsucceeds h with ⟨-, hnext⟩ | hnext
  · exact .inr hnext
  · obtain ⟨-, rfl⟩ := Prod.mk.inj hnext
    exact .inl (by simp)

/-- A source that does not come to an end goes on for ever and calls nothing. -/
theorem Answered.blocked (hsucceeds : update.Succeeds) (h : Answered update shared source next)
    (hblocked : update.Blocked source) :
    update.Blocked next.1 ∧ next.2.calls = shared.calls := by
  cases h with
  | notFound hlist =>
      obtain ⟨masterlist, hfound, -⟩ := hsucceeds.masterlist _ hblocked.1
      rw [hlist] at hfound
      cases hfound
  | @found source masterlist hlist =>
      obtain ⟨hsource, hdrains⟩ := hblocked
      obtain ⟨other, hother, hitems⟩ := hsucceeds.masterlist source hsource
      obtain rfl : masterlist = other := Option.some.inj (hlist.symm.trans hother)
      obtain ⟨hwaiting, hactive⟩ : (∀ item ∈ (ofTasks 1 Work.fetching masterlist).waiting,
          update.Found item) ∧ ∀ work ∈ (ofTasks 1 Work.fetching masterlist).active,
            update.Sound work :=
        forall_fill 1 Work.fetching (fun item hitem => hitem) hitems (by simp)
      refine ⟨⟨hwaiting, hactive, ?_⟩, rfl⟩
      by_cases hnil : masterlist = []
      · exact .inl (by simp [hnil])
      · have hstalls : ∃ item ∈ masterlist, update.Stalls item := by
          by_contra hnone
          exact hdrains ⟨masterlist, hlist, hnil, fun item hitem hstalls =>
            hnone ⟨item, hitem, hstalls⟩⟩
        exact .inr (exists_fill 1 Work.fetching (fun item hitem => hitem) (.inl hstalls))
  | @worked q worker work outcome hwork hworked =>
      obtain ⟨hwaiting, hactive, hstuck⟩ := hblocked
      have hstuck := hstuck.resolve_left fun hsize => by
        have := size_finish 1 Work.fetching hwork
        omega
      rcases hworked.sound hsucceeds (hactive work (List.mem_of_getElem? hwork)) with
        ⟨work', rfl, hnext⟩ | ⟨entry, rfl⟩
      · refine ⟨⟨hwaiting, forall_goOn hnext hactive, .inr (exists_goOn hwork ?_ hstuck)⟩, rfl⟩
        intro hdoomed
        obtain ⟨other, hother, hdoomed⟩ := hworked.doomed hdoomed
        exact Outcome.working.inj hother ▸ hdoomed
      · have hdoomed : ¬ update.Doomed work := fun hdoomed => by
          obtain ⟨other, hother, -⟩ := hworked.doomed hdoomed
          cases hother
        have hstuck := exists_finish 1 Work.fetching (fun item hitem => hitem) hwork hdoomed hstuck
        have hdrained : (q.finish 1 Work.fetching worker).drained = false := by
          rw [drained_eq_false_iff]
          rcases hstuck with ⟨item, hitem, -⟩ | ⟨other, hother, -⟩
          · have := List.length_pos_of_mem hitem
            simp only [size]
            omega
          · have := List.length_pos_of_mem hother
            simp only [size]
            omega
        obtain ⟨hwaiting, hactive⟩ : (∀ item ∈ (q.finish 1 Work.fetching worker).waiting,
            update.Found item) ∧ ∀ work ∈ (q.finish 1 Work.fetching worker).active,
              update.Sound work :=
          forall_finish 1 Work.fetching (fun item hitem => hitem) hwaiting hactive
        simp only [settle, hdrained, Bool.false_eq_true, if_false, and_true]
        exact ⟨hwaiting, hactive, .inr hstuck⟩
  | stored hstored => exact hblocked.elim
  | thrown hstored => exact hblocked.elim

/-! ## The packages of a source -/

variable (update)

/-- The package is that of an entry. -/
def Of (item : Item) (pack : Package) : Prop :=
  pack.info = item.info ∧
    ∃ info, update.database.appinfo item.info = some info ∧ pack.name = info.name

/-- The packages include an entry for this entry of a master list, with the id under which its
package is stored. -/
def Saved (item : Item) (packages : List Entry) : Prop :=
  ∃ pack id, update.Of item pack ∧ update.database.storePackage pack = some id ∧
    { name := pack.name, id := id } ∈ packages

/-- The work is on this entry. -/
def WorksOn (item : Item) : Work → Prop
  | .fetching other => other = item
  | .loadingCode pack _ _ => update.Of item pack
  | .storingResources pack _ => update.Of item pack
  | .saving pack => update.Of item pack
  | .stopped => False

/-- The entry is saved, or the source will come to it. -/
def Covered (item : Item) (packages : List Entry) : Source → Prop
  | .fetching source => ∃ masterlist,
      update.database.masterlist source = some masterlist ∧ item ∈ masterlist
  | .loading q => update.Saved item packages ∨
      (∃ other ∈ q.waiting, other = item) ∨ ∃ work ∈ q.active, update.WorksOn item work
  | .storing _ => update.Saved item packages
  | .finished => update.Saved item packages
  | .abandoned => False

variable {update} {item : Item}

/-- Packages are only added. -/
theorem Saved.append {packages : List Entry} (h : update.Saved item packages) (entry : Entry) :
    update.Saved item (packages ++ [entry]) := by
  obtain ⟨pack, id, hpack, hid, hentry⟩ := h
  exact ⟨pack, id, hpack, hid, List.mem_append_left _ hentry⟩

/-- Work on an entry stays work on it until its package is stored. -/
theorem Worked.worksOn {work : Work} {outcome : Outcome} (h : Worked update work outcome)
    (hitem : update.WorksOn item work) :
    (∀ next, outcome = .working next → update.WorksOn item next) ∧
      ∀ entry, outcome = .saved entry → update.Saved item [entry] := by
  cases h with
  | @found other info hinfo =>
      obtain rfl : other = item := hitem
      refine ⟨fun next hnext => ?_, fun entry hentry => by cases hentry⟩
      rw [← Outcome.working.inj hnext]
      exact ⟨rfl, info, hinfo, rfl⟩
  | @lastCode pack info cq request ctask htask =>
      refine ⟨fun next hnext => ?_, fun entry hentry => by cases hentry⟩
      rw [← Outcome.working.inj hnext, loadResources]
      split <;> exact hitem
  | saved hid =>
      refine ⟨fun next hnext => (by cases hnext), fun entry hentry => ?_⟩
      rw [← Outcome.saved.inj hentry]
      exact ⟨_, _, hitem, hid, List.mem_singleton_self _⟩
  | _ =>
      refine ⟨fun next hnext => ?_, fun entry hentry => by cases hentry⟩
      cases hnext <;> exact hitem

/-- An answer leaves an entry covered. -/
theorem Answered.covered (hsucceeds : update.Succeeds) (h : Answered update shared source next)
    (hgoing : update.Going source shared) (hcovered : update.Covered item shared.packages source) :
    update.Covered item next.2.packages next.1 := by
  cases h with
  | notFound hlist =>
      obtain ⟨masterlist, hfound, -⟩ := hcovered
      rw [hlist] at hfound
      cases hfound
  | @found source masterlist hlist =>
      obtain ⟨other, hother, hitem⟩ := hcovered
      obtain rfl : masterlist = other := Option.some.inj (hlist.symm.trans hother)
      exact .inr
        (exists_fill 1 Work.fetching (fun other hother => hother) (.inl ⟨item, hitem, rfl⟩))
  | @worked q worker work outcome hwork hworked =>
      obtain ⟨-, hactive, hwaiting, hlive⟩ := hgoing
      rcases hworked.live hsucceeds (hlive work (List.mem_of_getElem? hwork)) with
        ⟨work', rfl, -⟩ | ⟨entry, rfl⟩
      · exact hcovered.imp_right fun hcovered =>
          exists_goOn hwork (fun hitem => (hworked.worksOn hitem).1 work' rfl) hcovered
      · have hsaved : update.Saved item (shared.packages ++ [entry]) ∨
            (∃ other ∈ (q.finish 1 Work.fetching worker).waiting, other = item) ∨
              ∃ work ∈ (q.finish 1 Work.fetching worker).active, update.WorksOn item work := by
          rcases hcovered with hsaved | hcovered
          · exact .inl (hsaved.append entry)
          · by_cases hitem : update.WorksOn item work
            · obtain ⟨pack, id, hpack, hid, hentry⟩ := (hworked.worksOn hitem).2 entry rfl
              exact .inl ⟨pack, id, hpack, hid, List.mem_append_right _ hentry⟩
            · exact .inr (exists_finish 1 Work.fetching (fun other hother => hother) hwork hitem
                hcovered)
        simp only [settle]
        cases hdrained : (q.finish 1 Work.fetching worker).drained with
        | false => exact hsaved
        | true =>
            obtain ⟨hnone, hnobody⟩ : (q.finish 1 Work.fetching worker).waiting = [] ∧
                (q.finish 1 Work.fetching worker).active = [] := by simpa [drained] using hdrained
            exact hsaved.resolve_right (by simp [hnone, hnobody])
  | stored hstored => exact hcovered
  | thrown hstored => exact hcovered

/-! ## Whole runs -/

variable (update)

/-- Nothing of a source is left to be processed. -/
def Processed : Source → Prop
  | .fetching _ => False
  | .loading q => q.drained = true
  | _ => True

/-- Every run ends; at its end the callback has been called once, with the repository; all sources
have been processed by then, and the packages include every entry of every master list. -/
structure Completes : Prop where
  ends : WellFounded fun next system : update.System => Members.Step update.answer system next
  once : ∀ system, update.Reachable system → Members.Quiet update.answer system →
    ∃ packages, system.shared.calls = [.stored packages]
  processed : ∀ system next, update.Reachable system → Members.Step update.answer system next →
    next.shared.calls ≠ system.shared.calls → ∀ source, Processed (next.member source)
  packages : ∀ system packages, update.Reachable system →
    .stored packages ∈ system.shared.calls → ∀ source ∈ update.repo.sources, ∀ masterlist,
      update.database.masterlist source = some masterlist → ∀ item ∈ masterlist,
        update.Saved item packages

/-- The only source of a repository: it comes to an end and covers its entries, or it has called the
callback once with all of them. -/
def Single (source : Bytes) (state : Source) (shared : Shared) : Prop :=
  (update.Going state shared ∧ shared.calls = [] ∧ ∀ masterlist,
      update.database.masterlist source = some masterlist → ∀ item ∈ masterlist,
        update.Covered item shared.packages state) ∨
    (state = .finished ∧ ∃ packages, shared.calls = [.stored packages] ∧ ∀ masterlist,
      update.database.masterlist source = some masterlist → ∀ item ∈ masterlist,
        update.Saved item packages)

variable {update}

/-- An answer to the only source. -/
theorem Single.answered {id : Bytes} (hsucceeds : update.Succeeds)
    (hsingle : update.Single id source shared) (h : Answered update shared source next) :
    update.Single id next.1 next.2 ∧ (next.2.calls ≠ shared.calls → next.1 = .finished) := by
  rcases hsingle with ⟨hgoing, hcalls, hcovered⟩ | ⟨rfl, -⟩
  · rcases h.going hsucceeds hgoing with ⟨hsame, hnext⟩ | hnext
    · exact ⟨.inl ⟨hnext, hsame.trans hcalls, fun masterlist hlist item hitem =>
        h.covered hsucceeds hgoing (hcovered masterlist hlist item hitem)⟩,
        fun hcalled => absurd hsame hcalled⟩
    · refine ⟨.inr ⟨by rw [hnext], shared.packages, by rw [hnext, hcalls]; rfl, ?_⟩,
        fun _ => by rw [hnext]⟩
      intro masterlist hlist item hitem
      have hsaved := h.covered hsucceeds hgoing (hcovered masterlist hlist item hitem)
      rwa [hnext] at hsaved
  · cases h

/-- A list with one index has one element. -/
theorem eq_singleton_of_unique {list : List Bytes} (who : Fin list.length)
    (h : ∀ other, other = who) : list = [list.get who] := by
  have hpos := who.pos
  have hlength : list.length = 1 := by
    have hends := congrArg Fin.val ((h ⟨list.length - 1, by omega⟩).trans (h ⟨0, hpos⟩).symm)
    simp only at hends
    omega
  obtain ⟨value, rfl⟩ := List.length_eq_one_iff.1 hlength
  simp

/-- If no source comes to an end, nothing is ever called. -/
theorem calls_eq_nil_of_blocked (hsucceeds : update.Succeeds)
    (hnone : ∀ source ∈ update.repo.sources, ¬ update.Drains source) {system : update.System}
    (hreach : update.Reachable system) : system.shared.calls = [] := by
  refine (Members.invariant (fun system : update.System =>
    (∀ who, update.Blocked (system.member who)) ∧ system.shared.calls = []) ?_ hreach ?_).2
  · rintro system next ⟨hblocked, hcalls⟩ ⟨who, reply, member, shared, hanswer, rfl⟩
    obtain ⟨hmember, hsame⟩ := (answered_of_answer hanswer).2.blocked hsucceeds (hblocked who)
    refine ⟨fun other => ?_, hsame.trans hcalls⟩
    by_cases hother : other = who
    · subst hother
      simpa using hmember
    · simpa [Function.update_of_ne hother] using hblocked other
  · exact ⟨fun who => ⟨List.get_mem _ _, hnone _ (List.get_mem _ _)⟩, rfl⟩

/-- Beside a source that comes to an end there is no other one: its answers may all come first. -/
theorem Completes.unique (h : update.Completes) (hsucceeds : update.Succeeds)
    {who : Fin update.repo.sources.length} (hdrains : update.Drains (update.repo.sources.get who))
    (other : Fin update.repo.sources.length) : other = who := by
  by_contra hother
  obtain ⟨before, after, hrun, hstep, hcalled, hwaiting⟩ := Members.exists_alone
    (shrinks_answer update) update.Going (fun shared shared' => shared'.calls ≠ shared.calls)
    (fun source shared hgoing => exists_going_answer hsucceeds hgoing) who update.start
    ⟨rfl, List.get_mem _ _, hdrains⟩
  have hprocessed := h.processed before after hrun hstep hcalled other
  rw [hwaiting other hother] at hprocessed
  exact hprocessed

/-- Updating a repository completes exactly if it has one source, and that drains. -/
theorem completes_iff (update : Update) (hsucceeds : update.Succeeds) :
    update.Completes ↔ ∃ source, update.repo.sources = [source] ∧ update.Drains source := by
  have hends := Members.wellFounded_step (ι := Fin update.repo.sources.length)
    (shrinks_answer update)
  constructor
  · intro h
    obtain ⟨who, hdrains⟩ : ∃ who, update.Drains (update.repo.sources.get who) := by
      by_contra hnone
      obtain ⟨last, hrun, hquiet⟩ := Members.exists_quiet hends update.start
      obtain ⟨packages, hcalls⟩ := h.once last hrun hquiet
      have hnil := calls_eq_nil_of_blocked hsucceeds (fun source hsource hdrains => by
        obtain ⟨who, rfl⟩ := List.get_of_mem hsource
        exact hnone ⟨who, hdrains⟩) hrun
      rw [hnil] at hcalls
      cases hcalls
    exact ⟨_, eq_singleton_of_unique who fun other => h.unique hsucceeds hdrains other, hdrains⟩
  · rintro ⟨source, hsources, hdrains⟩
    have hunique : ∀ who other : Fin update.repo.sources.length, who = other := by
      have hlength : update.repo.sources.length = 1 := by rw [hsources]; rfl
      exact fun who other => Fin.ext (by omega)
    have hsingle : ∀ system, update.Reachable system → ∀ who,
        update.Single source (system.member who) system.shared := by
      intro system hreach
      refine Members.invariant (fun system : update.System => ∀ who,
        update.Single source (system.member who) system.shared) ?_ hreach fun who => ?_
      · rintro system next hsystem ⟨who, reply, member, shared, hanswer, rfl⟩ other
        obtain rfl := hunique who other
        simpa using ((hsystem who).answered hsucceeds (answered_of_answer hanswer).2).1
      · have hmember : update.repo.sources.get who = source :=
          List.mem_singleton.1 (hsources ▸ List.get_mem update.repo.sources who)
        refine .inl ⟨⟨rfl, ?_⟩, rfl, fun masterlist hlist item hitem => ?_⟩
        · exact ⟨List.get_mem _ _, hmember.symm ▸ hdrains⟩
        · exact ⟨masterlist, hmember.symm ▸ hlist, hitem⟩
    have hwho : 0 < update.repo.sources.length := by simp [hsources]
    refine ⟨hends, fun system hreach hquiet => ?_, ?_, ?_⟩
    · rcases hsingle system hreach ⟨0, hwho⟩ with ⟨hgoing, -⟩ | ⟨-, packages, hcalls, -⟩
      · obtain ⟨reply, source', shared', hanswer⟩ := exists_answer_of_going hgoing
        rw [hquiet] at hanswer
        cases hanswer
      · exact ⟨packages, hcalls⟩
    · rintro system next hreach ⟨who, reply, member, shared, hanswer, rfl⟩ hcalled other
      obtain rfl := hunique who other
      have hfinished := ((hsingle system hreach who).answered hsucceeds
        (answered_of_answer hanswer).2).2 hcalled
      simp only [Function.update_self]
      rw [show member = .finished from hfinished]
      trivial
    · intro system packages hreach hcalled other hother masterlist hlist item hitem
      rw [hsources, List.mem_singleton] at hother
      subst hother
      rcases hsingle system hreach ⟨0, hwho⟩ with ⟨-, hcalls, -⟩ | ⟨-, called, hcalls, hsaved⟩
      · rw [hcalls] at hcalled
        cases hcalled
      · rw [hcalls, List.mem_singleton, Call.stored.injEq] at hcalled
        exact hcalled ▸ hsaved masterlist hlist item hitem

/-- A database in which every source has one entry, of an app with one code. -/
def letterDatabase : Database where
  masterlist _ := some [{ name := [97], info := [105] }]
  appinfo _ := some
    { name := [97], version := none, html := none, resources := none, dependencies := none,
      code := [([109], [99])] }
  code _ := some [99]
  storeMap _ := true
  storePackage _ := some [112]
  storeRepo _ := true

/-- The update of a repository with these sources. -/
def letterUpdate (sources : List Bytes) : Update where
  database := letterDatabase
  repoid := [114]
  repo := { sources := sources, packages := [], revid := none }

/-- All calls to this database succeed. -/
theorem succeeds_letterUpdate (sources : List Bytes) : (letterUpdate sources).Succeeds where
  masterlist _ _ := ⟨_, rfl, fun _ _ => ⟨_, rfl, List.cons_ne_nil _ _⟩⟩
  storeMap _ := rfl
  storePackage _ := Option.some_ne_none _
  storeRepo _ := rfl

/-- Every source drains. -/
theorem drains_letterUpdate (sources : List Bytes) (source : Bytes) :
    (letterUpdate sources).Drains source := by
  refine ⟨_, rfl, List.cons_ne_nil _ _, fun item hitem => ?_⟩
  rintro ⟨info, hinfo, hresources⟩
  rw [← Option.some.inj hinfo] at hresources
  cases hresources

/-- A repository with one source. -/
theorem completes_letter : (letterUpdate [[115]]).Completes :=
  (completes_iff (letterUpdate [[115]]) (succeeds_letterUpdate [[115]])).2
    ⟨[115], rfl, drains_letterUpdate [[115]] [115]⟩

/-- With two sources the callback is called while one of them has not even been loaded. -/
theorem not_completes_two : ¬ (letterUpdate [[115], [116]]).Completes := by
  intro h
  have hunique := @Completes.unique _ h (succeeds_letterUpdate _) ⟨0, Nat.two_pos⟩
    (drains_letterUpdate _ _) ⟨1, Nat.one_lt_two⟩
  exact absurd (congrArg Fin.val hunique) Nat.one_ne_zero

end AnarchNet.Ppm.Update
