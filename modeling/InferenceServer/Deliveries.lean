import InferenceServer.VersionFidelity

/-! Each call of `InferAsync` brings its payload to one scheduler at most, which runs it at most
once, on a backend of the model it names. -/
namespace InferenceServer

variable {π φ : Type}

namespace Scheduler

theorem held_pair {sc : Scheduler π φ} {v w : Nat} {t u : Worker π φ} {p q : π}
    (atV : sc.threads[v]? = some t) (atW : sc.threads[w]? = some u) (apart : v ≠ w)
    (holds : t.pc.payload? = some p) (holds' : u.pc.payload? = some q) :
    ({p,q} : Multiset π) ≤ sc.held := by
  obtain ⟨others,before,after⟩ := collect_set (fun x : Worker π φ => x.pc.payload?) atV
  have gone := after ⟨0,.exited⟩
  simp only [WorkerPc.payload?,Option.toList_none,Multiset.coe_nil,zero_add] at gone
  have there : q ∈ others := by
    rw [← gone,Multiset.mem_coe]
    refine List.mem_filterMap.mpr ⟨u,List.mem_of_getElem? (i := w) ?_,holds'⟩
    rw [List.getElem?_set_ne apart,atW]
  rw [held,before]
  simp only [holds,Option.toList_some,Multiset.coe_singleton]
  exact (add_le_add_iff_left {p}).mpr (Multiset.singleton_le.mpr there)

theorem underway_le_held (sc : Scheduler π φ) : sc.underway ≤ sc.held := by
  have part : (fun t : Worker π φ => t.pc.underway?) =
      fun t => if t.pc.underway?.isSome then t.pc.payload? else none := by
    funext t
    cases t.pc <;> rfl
  rw [underway,held,part,← List.filterMap_filter]
  exact (List.filter_sublist.filterMap _).subperm

theorem appended_countP (log : List (Event Payload Nat)) (s : Nat)
    (own : ∀ c q, .appended c q ∈ log → q.id = c) :
    (log.filterMap Event.appended?).countP (·.id = s) =
      (log.filter (Event.appendedBy s)).length := by
  induction log with
  | nil => rfl
  | cons e rest ih =>
    have tail := ih fun c q member => own c q (List.mem_cons_of_mem e member)
    cases e with
    | appended c q =>
      have named : q.id = c := own c q (List.mem_cons_self ..)
      by_cases mine : c = s
      · simp [Event.appended?,Event.appendedBy,mine,named,tail]
      · simp [Event.appended?,Event.appendedBy,mine,named,tail,Ne.symm mine]
    | _ => simpa [Event.appended?,Event.appendedBy,List.filterMap_cons] using tail

theorem event_unique {log : List (Event π φ)} {select : Event π φ → Bool}
    (once : log.countP select ≤ 1) {e f : Event π φ} (member : e ∈ log) (member' : f ∈ log)
    (chosen : select e = true) (chosen' : select f = true) : e = f := by
  have there := List.mem_filter.mpr ⟨member,chosen⟩
  have there' := List.mem_filter.mpr ⟨member',chosen'⟩
  rw [List.countP_eq_length_filter] at once
  match only : log.filter select with
  | [] =>
    rw [only] at there
    contradiction
  | [x] =>
    rw [only] at there there'
    exact (List.mem_singleton.mp there).trans (List.mem_singleton.mp there').symm
  | _ :: _ :: _ =>
    rw [only] at once
    simp at once

end Scheduler

namespace Server

variable {config : ServerConfig} {sv sv' : Server}

def Single (sv : Server) : Prop :=
  ∀ c, match sv.callers c with
    | .outside | .entering _ => ∀ k, (sv.schedulers k).producers c = .idle
    | .enqueuing _ k => ∀ j, j ≠ k → (sv.schedulers j).producers c = .idle
    | .returned _ _ => ∀ j k, (sv.schedulers j).producers c ≠ .idle →
        (sv.schedulers k).producers c ≠ .idle → j = k

theorem Single.one (single : Single sv) {c j k : Nat} (here : (sv.schedulers j).producers c ≠ .idle)
    (there : (sv.schedulers k).producers c ≠ .idle) : j = k := by
  have mine := single c
  split at mine
  · exact absurd (mine j) here
  · exact absurd (mine j) here
  next l _ =>
    have first : j = l := by
      by_contra other
      exact here (mine j other)
    have second : k = l := by
      by_contra other
      exact there (mine k other)
    exact first.trans second.symm
  · exact mine j k here there

theorem caller_single {c : Nat} {a : CallerAction} (taken : CallerStep sv c a sv')
    (single : Single sv) : Single sv' := by
  have moved (pc : CallerPc) (place : match pc with
      | .outside | .entering _ => ∀ k, (sv.schedulers k).producers c = .idle
      | .enqueuing _ k => ∀ j, j ≠ k → (sv.schedulers j).producers c = .idle
      | .returned _ _ => ∀ j k, (sv.schedulers j).producers c ≠ .idle →
          (sv.schedulers k).producers c ≠ .idle → j = k) : Single (sv.setCaller c pc) := by
    intro d
    by_cases same : d = c
    · subst d
      simpa [setCaller] using place
    · simpa [setCaller,Function.update_of_ne same] using single d
  have mine := single c
  cases taken with
  | call here =>
    rw [here] at mine
    exact moved _ mine
  | notFound here =>
    rw [here] at mine
    exact moved _ fun j _ busy => absurd (mine j) busy
  | found here =>
    rw [here] at mine
    exact moved (.enqueuing _ _) fun j _ => mine j
  | finish here =>
    exact moved (.returned _ _) fun _ _ busy busy' => single.one busy busy'
  | @enqueue p k a b sc here stepped =>
    have others : ∀ d, d ≠ c → sc.producers d = (sv.schedulers k).producers d := by
      intro d other
      have step := Scheduler.producerStep_cases stepped
      cases step <;> simp [Scheduler.setProducer,Function.update_of_ne other]
    intro d
    by_cases same : d = c
    · subst d
      rw [here] at mine
      simp only [setScheduler,here]
      intro j other
      rw [Function.update_of_ne other]
      exact mine j other
    · have kept (j : Nat) : (Function.update sv.schedulers k sc j).producers d =
          (sv.schedulers j).producers d := by
        by_cases at' : j = k
        · subst j
          rw [Function.update_self,others d same]
        · rw [Function.update_of_ne at']
      have before := single d
      simp only [setScheduler]
      simp only [kept]
      exact before

theorem reachable_single (reach : (machine config).Reachable sv) : Single sv := by
  have initial : Single (create config) := fun _ => show ∀ k, _ = _ from fun _ => rfl
  refine reach.invariant initial ?_
  intro sv a sv' before single taken
  by_cases mine : ∃ c b, a = .caller c b
  · obtain ⟨c,b,rfl⟩ := mine
    exact caller_single (callerStep_cases taken) single
  · have other (c : Nat) (b : CallerAction) : a ≠ .caller c b := fun same => mine ⟨c,b,same⟩
    have callers := step_callers taken other
    have producers := step_producers before taken other
    intro c
    rw [callers]
    simp only [producers]
    exact single c

theorem appended_few (reach : (machine config).Reachable sv) (k s : Nat) :
    (sv.schedulers k).appended.countP (·.id = s) ≤ 1 := by
  obtain ⟨func,sound⟩ := reachable_sound reach k
  rw [Scheduler.appended,Multiset.coe_countP,
    Scheduler.appended_countP _ s fun c q => appended_own reach]
  have accounted := sound.answered s
  unfold Scheduler.Accounted at accounted
  split at accounted
  · simp [accounted]
  · simp [accounted]
  · simp [accounted]
  · simp [accounted.1]
  · rcases accounted with own | ⟨none,_⟩
    · simp [own]
    · simp [none]
  · simp [accounted]

theorem copies_few (reach : (machine config).Reachable sv) (k s : Nat) :
    (sv.schedulers k).queue.buffer.countP (·.id = s) + (sv.schedulers k).held.countP (·.id = s) +
      (sv.schedulers k).completed.countP (·.id = s) ≤ 1 := by
  obtain ⟨func,sound⟩ := reachable_sound reach k
  have few := appended_few reach k s
  rw [sound.conserved.payloads,Multiset.countP_add,Multiset.countP_add,Multiset.coe_countP] at few
  exact few

/-- A payload that is anywhere in a scheduler was appended to its queue. -/
theorem appended_of_copy (reach : (machine config).Reachable sv) {k : Nat} {p : Payload}
    (somewhere : p ∈ (sv.schedulers k).queue.buffer ∨ p ∈ (sv.schedulers k).held ∨
      p ∈ (sv.schedulers k).completed) : .appended p.id p ∈ (sv.schedulers k).log := by
  obtain ⟨func,sound⟩ := reachable_sound reach k
  have there : p ∈ (sv.schedulers k).appended := by
    rw [sound.conserved.payloads,Multiset.mem_add,Multiset.mem_add,Multiset.mem_coe]
    tauto
  obtain ⟨e,member,appends⟩ := List.mem_filterMap.mp (Multiset.mem_coe.mp there)
  cases e <;> cases appends
  exact appended_own reach member ▸ member

theorem appended_single (reach : (machine config).Reachable sv) {j k s : Nat} {p q : Payload}
    (member : .appended s p ∈ (sv.schedulers j).log) (member' : .appended s q ∈ (sv.schedulers k).log) :
    j = k := by
  have busy {k : Nat} {p : Payload} (member : .appended s p ∈ (sv.schedulers k).log) :
      (sv.schedulers k).producers s ≠ .idle := by
    obtain ⟨func,sound⟩ := reachable_sound reach k
    rcases Scheduler.appended_place sound.answered member with place | place <;> simp [place]
  exact (reachable_single reach).one (busy member) (busy member')

theorem mem_held {k w : Nat} {t : Worker Payload Nat} {p : Payload}
    (atIndex : (sv.schedulers k).threads[w]? = some t) (holds : t.pc.payload? = some p) :
    p ∈ (sv.schedulers k).held := by
  rw [Scheduler.held,Multiset.mem_coe]
  exact List.mem_filterMap.mpr ⟨t,List.mem_of_getElem? atIndex,holds⟩

/-- No two workers hold payloads of one call. -/
theorem holder_unique (reach : (machine config).Reachable sv) {j k v w : Nat}
    {t u : Worker Payload Nat} {p q : Payload} (atV : (sv.schedulers j).threads[v]? = some t)
    (atW : (sv.schedulers k).threads[w]? = some u) (holds : t.pc.payload? = some p)
    (holds' : u.pc.payload? = some q) (same : p.id = q.id) : j = k ∧ v = w := by
  have one := appended_of_copy reach (.inr (.inl (mem_held atV holds)))
  have other := appended_of_copy reach (.inr (.inl (mem_held atW holds')))
  rw [same] at one
  obtain rfl := appended_single reach one other
  refine ⟨rfl,?_⟩
  by_contra apart
  have both := Multiset.countP_le_of_le (·.id = q.id)
    (Scheduler.held_pair atV atW apart holds holds')
  have two : ({p,q} : Multiset Payload).countP (·.id = q.id) = 2 := by
    rw [show ({p,q} : Multiset Payload) = ↑[p,q] from rfl,Multiset.coe_countP]
    simp [same]
  have few := copies_few reach j q.id
  omega

def runs (sv : Server) (k s : Nat) : Nat := (sv.schedulers k).invoked.countP (·.id = s)

theorem runs_le (reach : (machine config).Reachable sv) (k s : Nat) : runs sv k s ≤ 1 := by
  obtain ⟨func,sound⟩ := reachable_sound reach k
  have held := Multiset.countP_le_of_le (·.id = s) (sv.schedulers k).underway_le_held
  have few := copies_few reach k s
  rw [runs,sound.conserved.calls,Multiset.countP_add]
  omega

/-- Only what was appended is run. -/
theorem ran_appended (reach : (machine config).Reachable sv) {k s : Nat} (ran : 0 < runs sv k s) :
    ∃ p, p.id = s ∧ .appended s p ∈ (sv.schedulers k).log := by
  obtain ⟨func,sound⟩ := reachable_sound reach k
  obtain ⟨p,member,named⟩ := Multiset.countP_pos.mp ran
  rw [sound.conserved.calls] at member
  refine ⟨p,named,named ▸ appended_of_copy reach ?_⟩
  rcases Multiset.mem_add.mp member with busy | completed
  · exact .inr (.inl (Multiset.mem_of_le (sv.schedulers k).underway_le_held busy))
  · exact .inr (.inr completed)

theorem runs_one (reach : (machine config).Reachable sv) {j k s : Nat} (here : 0 < runs sv j s)
    (there : 0 < runs sv k s) : j = k := by
  obtain ⟨_,_,one⟩ := ran_appended reach here
  obtain ⟨_,_,other⟩ := ran_appended reach there
  exact appended_single reach one other

/-- A payload is only ever run by a backend of the model it names. -/
theorem invoked_named (reach : (machine config).Reachable sv) :
    ∀ k w idx f batch p, .invoked w idx f batch ∈ (sv.schedulers k).log → p ∈ batch →
      f < sv.nextBackend ∧ (sv.backends f).object.modelName = p.modelName := by
  refine reach.invariant (P := fun sv => ∀ k w idx f batch p,
    .invoked w idx f batch ∈ (sv.schedulers k).log → p ∈ batch →
      f < sv.nextBackend ∧ (sv.backends f).object.modelName = p.modelName)
    (by simp [machine,create,Scheduler.create]) ?_
  intro sv a sv' before valid taken k w idx f batch p member inBatch
  obtain ⟨grows,objects⟩ := step_objects taken
  have keep {f : Nat} (old : f < sv.nextBackend)
      (named : (sv.backends f).object.modelName = p.modelName) :
      f < sv'.nextBackend ∧ (sv'.backends f).object.modelName = p.modelName :=
    ⟨Nat.lt_of_lt_of_le old grows,(objects f old).1.trans named⟩
  cases reachable_moves before taken k with
  | still same =>
    rw [same] at member
    obtain ⟨old,named⟩ := valid k w idx f batch p member inBatch
    exact keep old named
  | created _ _ same =>
    rw [same] at member
    contradiction
  | moved _ _ _ stepped =>
    rcases Scheduler.step_invoked stepped member with earlier | ⟨rfl,q,t,rfl,atIndex,held⟩
    · obtain ⟨old,named⟩ := valid k w idx f batch p earlier inBatch
      exact keep old named
    · obtain rfl := List.mem_singleton.mp inBatch
      have appended := appended_of_copy before
        (.inr (.inl (mem_held atIndex (WorkerPc.waiting_payload held))))
      have created := appended_created before appended
      exact keep ((reachable_valid before).sane.inRange k created)
        (appended_named before k _ p appended)

end Server
end InferenceServer
