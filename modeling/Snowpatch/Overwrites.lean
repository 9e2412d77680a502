import Snowpatch.Passes
import Snowpatch.Delivery
import Snowpatch.Watchers

/-! What the dispatcher removes against what it has sent. It removes a key by its name alone,
at the end of a pass, and a task may write to the same key while the pass goes on: two runners
share one handle, so their tasks for one series write the same keys. -/
namespace Snowpatch.Overwrites

open Pipeline

/-- The dispatcher begins a new pass, or a new process does. -/
def BeginsPass : Event → Prop
  | .start _ _ | .stop | .main .connect | .dispatch (.wait _) => True
  | _ => False

/-- In the pass that is going on, the dispatcher has had this value of the key in hand for
`send_check`. -/
def SentInPass (env : Env) (s₀ : State) (tr : List Event) (key : String)
    (value : RunnerResult) : Prop :=
  ∃ pre post drop, tr = pre ++ post ∧
    ((machine env).run s₀ pre).proc.dispatch = .sending key value drop ∧
    ∀ e ∈ post, ¬ BeginsPass e

/-- The keys that the pass has taken and not yet removed. -/
def pending (pc : Dispatch.Pc) : List String :=
  (Passes.inHand pc).toList ++ Delivery.keysToDrop pc

def Reads : Dispatch.Pc → Prop
  | .iterate _ _ | .sending _ _ _ | .checking _ _ _ _ _ | .posting _ _ _ _ _ => True
  | .off | .dropping _ | .waiting _ | .aborted => False

/-- The pass has cloned the key with its leaf and is going to take it from there. -/
def ToCome (s : State) (key : String) : Prop :=
  Reads s.proc.dispatch ∧ s.proc.dispatch.cursor < (key : WithBot String) ∧
    key ∈ s.proc.dispatchLeaf.entries

/-- A task that writes to a key of the pass, cloned or taken, writes what is there already. -/
def KeepsPass (s : State) : Event → Prop
  | .wait t (.report job) => job.name ∉ t.completed →
      dispatchKey gitHubHandle t.branch job.name ∈ pending s.proc.dispatch ∨
        ToCome s (dispatchKey gitHubHandle t.branch job.name) →
          Finmap.lookup (dispatchKey gitHubHandle t.branch job.name) s.db.needsDispatch = some job
  | _ => True

def Ascends : Dispatch.Pc → Prop
  | .iterate cursor drop => drop.Nodup ∧ ∀ k ∈ drop, (k : WithBot String) ≤ cursor
  | .sending key _ drop | .checking key _ _ _ drop | .posting key _ _ _ drop =>
    drop.Nodup ∧ ∀ k ∈ drop, k < key
  | .dropping rest => rest.Nodup
  | .off | .waiting _ | .aborted => True

structure Faithful (env : Env) (s₀ : State) (tr : List Event) (s : State) : Prop where
  ascends : Ascends s.proc.dispatch
  sent : ∀ key ∈ pending s.proc.dispatch, ∃ value, SentInPass env s₀ tr key value
  stored : ∀ key ∈ pending s.proc.dispatch, ∀ value, SentInPass env s₀ tr key value →
    Finmap.lookup key s.db.needsDispatch = some value
  reads : Reads s.proc.dispatch → ∀ key value, SentInPass env s₀ tr key value →
    key ∈ pending s.proc.dispatch
  cloned : ∀ key, ToCome s key →
    Finmap.lookup key s.proc.dispatchLeaf.entries = Finmap.lookup key s.db.needsDispatch

section Append

variable {env : Env} {s₀ s : State} {tr : List Event} {e : Event} {key : String}
  {value : RunnerResult}

theorem sentInPass_append (hx : (machine env).Execution s₀ tr s) (he : Enabled env s e) :
    SentInPass env s₀ (tr ++ [e]) key value ↔
      (SentInPass env s₀ tr key value ∧ ¬ BeginsPass e) ∨
        ∃ drop, (next env s e).proc.dispatch = .sending key value drop := by
  have hrun : (machine env).run s₀ (tr ++ [e]) = next env s e :=
    (Machine.Execution.snoc e hx he).eq_run.symm
  constructor
  · rintro ⟨pre, post, drop, htr, hpc, hpost⟩
    rcases List.eq_nil_or_concat post with rfl | ⟨l, a, rfl⟩
    · rw [List.append_nil] at htr
      rw [← htr, hrun] at hpc
      exact Or.inr ⟨drop, hpc⟩
    · rw [List.concat_eq_append, ← List.append_assoc] at htr
      obtain ⟨rfl, ha⟩ := List.append_inj' htr rfl
      obtain rfl := List.singleton_inj.mp ha
      exact Or.inl ⟨⟨pre, l, drop, rfl, hpc, fun x hx => hpost x (by simp [hx])⟩,
        hpost e (by simp)⟩
  · rintro (⟨⟨pre, post, drop, rfl, hpc, hpost⟩, hbegins⟩ | ⟨drop, hpc⟩)
    · refine ⟨pre, post ++ [e], drop, by simp, hpc, ?_⟩
      intro x hx
      rcases List.mem_append.mp hx with hx | hx
      · exact hpost x hx
      · rw [List.mem_singleton.mp hx]
        exact hbegins
    · exact ⟨tr ++ [e], [], drop, by simp, hrun ▸ hpc, by simp⟩

theorem sentInPass_sending (hx : (machine env).Execution s₀ tr s) {drop : List String}
    (hpc : s.proc.dispatch = .sending key value drop) : SentInPass env s₀ tr key value :=
  ⟨tr, [], drop, by simp, hx.eq_run ▸ hpc, by simp⟩

end Append

theorem mem_pending_hand {pc : Dispatch.Pc} {k key : String} {drop : List String}
    (hhand : Passes.inHand pc = some key) (hdrop : Delivery.keysToDrop pc = drop) :
    k ∈ pending pc ↔ k = key ∨ k ∈ drop := by
  simp [pending, hhand, hdrop]

theorem mem_pending_sent {cursor : WithBot String} {k key : String} {drop : List String} :
    k ∈ pending (.iterate cursor (drop ++ [key])) ↔ k = key ∨ k ∈ drop := by
  simp [pending, Passes.inHand, Delivery.keysToDrop, or_comm]

section Steps

variable {env : Env} {s₀ s : State} {tr : List Event} {e : Event} {pc q : Dispatch.Pc}

theorem Faithful.kept (hx : (machine env).Execution s₀ tr s) (he : Enabled env s e)
    (h : Faithful env s₀ tr s) (hpc : s.proc.dispatch = pc)
    (hq : (next env s e).proc.dispatch = q) (hbegins : ¬ BeginsPass e)
    (hascends : Ascends pc → Ascends q)
    (hsending : ∀ key value drop, q = .sending key value drop → pc = q)
    (hpending : ∀ k ∈ pending q, k ∈ pending pc)
    (hreads : Reads q → Reads pc ∧ pc.cursor ≤ q.cursor ∧ ∀ k ∈ pending pc, k ∈ pending q)
    (hstored : ∀ k, k ∈ pending q ∨ ToCome (next env s e) k →
      Finmap.lookup k (next env s e).db.needsDispatch = Finmap.lookup k s.db.needsDispatch) :
    Faithful env s₀ (tr ++ [e]) (next env s e) := by
  subst hpc hq
  have hback : ∀ key value, SentInPass env s₀ (tr ++ [e]) key value →
      SentInPass env s₀ tr key value := by
    intro key value hs
    rcases (sentInPass_append hx he).mp hs with ⟨hs, _⟩ | ⟨drop, hd⟩
    · exact hs
    · exact sentInPass_sending hx ((hsending key value drop hd).trans hd)
  constructor
  · exact hascends h.ascends
  · intro key hk
    obtain ⟨value, hs⟩ := h.sent key (hpending key hk)
    exact ⟨value, (sentInPass_append hx he).mpr (Or.inl ⟨hs, hbegins⟩)⟩
  · intro key hk value hs
    rw [hstored key (Or.inl hk)]
    exact h.stored key (hpending key hk) value (hback key value hs)
  · intro hr key value hs
    obtain ⟨hr, _, hsub⟩ := hreads hr
    exact hsub key (h.reads hr key value (hback key value hs))
  · intro key hcome
    obtain ⟨value, hv⟩ := Finmap.mem_iff.mp hcome.2.2
    obtain ⟨hr, hle, _⟩ := hreads hcome.1
    rw [hstored key (Or.inr hcome), hv]
    rcases RunnerStage.lookup_dispatchLeaf_next he hv with hold | hread
    · rw [← h.cloned key ⟨hr, hle.trans_lt hcome.2.1, Finmap.mem_of_lookup_eq_some hold⟩, hold]
    · exact hread.symm

theorem Faithful.begins (hx : (machine env).Execution s₀ tr s) (he : Enabled env s e)
    (hbegins : BeginsPass e) (hpc' : (next env s e).proc.dispatch = .iterate ⊥ [] ∧
      (next env s e).proc.dispatchLeaf = .start ∨ ¬ Reads (next env s e).proc.dispatch ∧
        pending (next env s e).proc.dispatch = [] ∧ Ascends (next env s e).proc.dispatch) :
    Faithful env s₀ (tr ++ [e]) (next env s e) := by
  have hnone : ∀ key value, ¬ SentInPass env s₀ (tr ++ [e]) key value := by
    intro key value hs
    rcases (sentInPass_append hx he).mp hs with ⟨_, hn⟩ | ⟨drop, hd⟩
    · exact hn hbegins
    · rcases hpc' with ⟨hi, _⟩ | ⟨hr, _⟩
      · rw [hi] at hd
        cases hd
      · exact hr (hd ▸ trivial)
  have hempty : pending (next env s e).proc.dispatch = [] := by
    rcases hpc' with ⟨hi, _⟩ | ⟨_, hp, _⟩
    · rw [hi]
      rfl
    · exact hp
  refine ⟨?_, by simp [hempty], by simp [hempty], fun _ key value hs => absurd hs (hnone _ _),
    fun key hcome => ?_⟩
  · rcases hpc' with ⟨hi, _⟩ | ⟨_, _, ha⟩
    · rw [hi]
      simp [Ascends]
    · exact ha
  · obtain ⟨hr, _, hmem⟩ := hcome
    rcases hpc' with ⟨_, hl⟩ | ⟨hno, _⟩
    · rw [hl] at hmem
      exact absurd hmem Finmap.notMem_empty
    · exact absurd hr hno

theorem faithful_take (hx : (machine env).Execution s₀ tr s) (h : Faithful env s₀ tr s)
    {key : String} (he : Enabled env s (.dispatch (.take key))) :
    Faithful env s₀ (tr ++ [.dispatch (.take key)]) (next env s (.dispatch (.take key))) := by
  have ⟨cursor, drop, hpc, hleaf⟩ := he
  have hpc : s.proc.dispatch = .iterate cursor drop := hpc
  obtain ⟨value, hv⟩ := Finmap.mem_iff.mp (KvTree.mem_of_first hleaf)
  obtain ⟨hmem, hlt, _⟩ := KvTree.of_first_eq hleaf
  have hnext : (next env s (.dispatch (.take key))).proc.dispatch = .sending key value drop := by
    simp [next_dispatch, Dispatch.nextPc, hpc, hv]
  obtain ⟨hascends, hsent, hstored, hreads, hcloned⟩ := h
  unfold ToCome at hcloned
  rw [hpc] at hascends hsent hstored hreads hcloned
  have hvalue : Finmap.lookup key s.db.needsDispatch = some value := by
    rw [← hcloned key ⟨trivial, hlt, hmem⟩]
    exact hv
  have hpending : ∀ k, k ∈ pending (.sending key value drop) ↔ k = key ∨ k ∈ drop := by
    simp [pending, Passes.inHand, Delivery.keysToDrop]
  have hold : ∀ k v, SentInPass env s₀ (tr ++ [.dispatch (.take key)]) k v →
      (k ∈ drop ∧ SentInPass env s₀ tr k v) ∨ k = key ∧ v = value := by
    intro k v hs
    rcases (sentInPass_append hx he).mp hs with ⟨hs, _⟩ | ⟨l, hd⟩
    · exact Or.inl ⟨hreads trivial k v hs, hs⟩
    · rw [hnext] at hd
      cases hd
      exact Or.inr ⟨rfl, rfl⟩
  have hbefore : ∀ k ∈ drop, k < key := fun k hk =>
    WithBot.coe_lt_coe.mp ((hascends.2 k hk).trans_lt hlt)
  constructor
  · rw [hnext]
    exact ⟨hascends.1, hbefore⟩
  · intro k hk
    rw [hnext, hpending] at hk
    rcases hk with rfl | hk
    · exact ⟨value, (sentInPass_append hx he).mpr (Or.inr ⟨drop, hnext⟩)⟩
    · obtain ⟨v, hs⟩ := hsent k hk
      exact ⟨v, (sentInPass_append hx he).mpr (Or.inl ⟨hs, id⟩)⟩
  · intro k _ v hs
    rcases hold k v hs with ⟨hk, hs⟩ | ⟨rfl, rfl⟩
    · exact hstored k hk v hs
    · exact hvalue
  · intro _ k v hs
    rw [hnext, hpending]
    rcases hold k v hs with ⟨hk, _⟩ | ⟨rfl, _⟩
    · exact Or.inr hk
    · exact Or.inl rfl
  · rintro k ⟨_, hcursor, hin⟩
    rw [hnext] at hcursor
    exact hcloned k ⟨trivial, hlt.trans hcursor, hin⟩

theorem faithful_sent (hx : (machine env).Execution s₀ tr s) (h : Faithful env s₀ tr s)
    {d : Dispatch.Event} (he : Enabled env s (.dispatch d)) (hbegins : ¬ BeginsPass (.dispatch d))
    (hpc : s.proc.dispatch = pc) {key : String} {drop : List String}
    (hhand : Passes.inHand pc = some key) (hdrop : Delivery.keysToDrop pc = drop)
    (hnext : (next env s (.dispatch d)).proc.dispatch = .iterate key (drop ++ [key]))
    (hdb : (next env s (.dispatch d)).db = s.db) :
    Faithful env s₀ (tr ++ [.dispatch d]) (next env s (.dispatch d)) := by
  have hreads : Reads pc ∧ pc.cursor = key ∧
      (Ascends pc → drop.Nodup ∧ ∀ k ∈ drop, k < key) := by
    cases pc with
    | sending | checking | posting =>
      obtain rfl := Option.some.inj hhand
      obtain rfl : _ = drop := hdrop
      exact ⟨trivial, rfl, id⟩
    | off | iterate | dropping | waiting | aborted => cases hhand
  refine h.kept hx he hpc hnext hbegins ?_ (by simp) ?_ ?_ fun _ _ => by rw [hdb]
  · intro ha
    obtain ⟨hnodup, hlt⟩ := hreads.2.2 ha
    refine ⟨List.nodup_append.mpr ⟨hnodup, List.nodup_singleton _, ?_⟩, ?_⟩
    · intro a ha b hb
      rw [List.mem_singleton.mp hb]
      exact (hlt a ha).ne
    · intro k hk
      rcases List.mem_append.mp hk with hk | hk
      · exact WithBot.coe_le_coe.mpr (hlt k hk).le
      · rw [List.mem_singleton.mp hk]
  · intro k hk
    exact (mem_pending_hand hhand hdrop).mpr (mem_pending_sent.mp hk)
  · intro _
    refine ⟨hreads.1, hreads.2.1.le, fun k hk => ?_⟩
    exact mem_pending_sent.mpr ((mem_pending_hand hhand hdrop).mp hk)

theorem faithful_drop (hx : (machine env).Execution s₀ tr s) (h : Faithful env s₀ tr s)
    {key : String} (he : Enabled env s (.dispatch (.drop key))) :
    Faithful env s₀ (tr ++ [.dispatch (.drop key)]) (next env s (.dispatch (.drop key))) := by
  obtain ⟨rest, hpc⟩ := id he
  have hpc : s.proc.dispatch = .dropping (key :: rest) := hpc
  have hnodup : (key :: rest).Nodup := by
    have hascends := h.ascends
    rwa [hpc] at hascends
  refine h.kept hx he hpc (q := .dropping rest) ?_ id (fun _ => hnodup.of_cons) (by simp)
    (fun k hk => List.mem_cons_of_mem _ hk) False.elim ?_
  · simp [next_dispatch, Dispatch.nextPc, hpc]
  · rintro k (hk | ⟨hr, _⟩)
    · refine Finmap.lookup_erase_ne ?_
      rintro rfl
      exact (List.nodup_cons.mp hnodup).1 hk
    · simp [next_dispatch, Dispatch.nextPc, hpc, Reads] at hr

theorem faithful_dispatch (hx : (machine env).Execution s₀ tr s) (h : Faithful env s₀ tr s)
    {d : Dispatch.Event} (he : Enabled env s (.dispatch d)) :
    Faithful env s₀ (tr ++ [.dispatch d]) (next env s (.dispatch d)) := by
  cases d with
  | read leaf found =>
    obtain ⟨cursor, drop, hpc, _⟩ := id he
    exact h.kept hx he hpc hpc id id (by simp) (fun _ hk => hk)
      (fun _ => ⟨trivial, le_rfl, fun _ hk => hk⟩) fun _ _ => rfl
  | take key => exact faithful_take hx h he
  | noToken =>
    obtain ⟨_, key, value, drop, hpc, _⟩ := id he
    have hpc : s.proc.dispatch = .sending key value drop := hpc
    refine faithful_sent hx h he id hpc rfl rfl ?_ rfl
    simp [next_dispatch, Dispatch.nextPc, Delivery.keysToDrop, hpc]
  | duplicate =>
    obtain ⟨key, id', patch, result, drop, hpc, _⟩ := id he
    have hpc : s.proc.dispatch = .checking key id' patch result drop := hpc
    refine faithful_sent hx h he id hpc rfl rfl ?_ rfl
    simp [next_dispatch, Dispatch.nextPc, Delivery.keysToDrop, hpc]
  | post a patch check =>
    obtain ⟨key, result, drop, hpc, _⟩ := id he
    have hpc : s.proc.dispatch = .posting key a patch result drop := hpc
    refine faithful_sent hx h he id hpc rfl rfl ?_ rfl
    simp [next_dispatch, Dispatch.nextPc, Delivery.keysToDrop, hpc]
  | getSeries patch =>
    obtain ⟨_, key, value, drop, handle, a, name, hpc, hparse, _⟩ := id he
    have hpc : s.proc.dispatch = .sending key value drop := hpc
    refine h.kept hx he hpc (q := .checking key a patch (checkToSend handle name value) drop)
      ?_ id id (by simp) (fun _ hk => hk) (fun _ => ⟨trivial, le_rfl, fun _ hk => hk⟩)
      fun _ _ => rfl
    simp [next_dispatch, Dispatch.nextPc, hpc, hparse]
  | unique =>
    obtain ⟨key, a, patch, result, drop, hpc, _⟩ := id he
    have hpc : s.proc.dispatch = .checking key a patch result drop := hpc
    refine h.kept hx he hpc (q := .posting key a patch result drop) ?_ id id (by simp)
      (fun _ hk => hk) (fun _ => ⟨trivial, le_rfl, fun _ hk => hk⟩) fun _ _ => rfl
    simp [next_dispatch, Dispatch.nextPc, hpc]
  | postBreaks a patch check =>
    refine h.kept hx he rfl (q := .aborted) rfl id (fun _ => trivial) (by simp) ?_ False.elim
      fun _ _ => rfl
    simp [pending, Passes.inHand, Delivery.keysToDrop]
  | ends =>
    obtain ⟨cursor, drop, hpc, _⟩ := id he
    have hpc : s.proc.dispatch = .iterate cursor drop := hpc
    refine h.kept hx he hpc (q := .dropping drop) ?_ id And.left (by simp) (fun _ hk => hk)
      False.elim fun _ _ => rfl
    simp [next_dispatch, Dispatch.nextPc, hpc]
  | drop key => exact faithful_drop hx h he
  | dropped =>
    refine h.kept hx he rfl (q := .waiting .register) rfl id (fun _ => trivial) (by simp) ?_
      False.elim fun _ _ => rfl
    simp [pending, Passes.inHand, Delivery.keysToDrop]
  | wait e =>
    obtain ⟨w, hpc, _⟩ := id he
    have hpc : s.proc.dispatch = .waiting w := hpc
    refine .begins hx he trivial ?_
    cases hn : w.next e with
    | none => exact Or.inl ⟨by simp [next_dispatch, Dispatch.nextPc, hpc, hn], rfl⟩
    | some w' =>
      have hnext : (next env s (.dispatch (.wait e))).proc.dispatch = .waiting w' := by
        simp [next_dispatch, Dispatch.nextPc, hpc, hn]
      rw [hnext]
      exact Or.inr ⟨id, rfl, trivial⟩

theorem faithful_elsewhere (hx : (machine env).Execution s₀ tr s) (he : Enabled env s e)
    (h : Faithful env s₀ tr s) (hbegins : ¬ BeginsPass e)
    (hpc : (next env s e).proc.dispatch = s.proc.dispatch ∨
      (next env s e).proc.dispatch = s.proc.dispatch.notify)
    (hleaf : (next env s e).proc.dispatchLeaf = s.proc.dispatchLeaf)
    (hstored : ∀ k, k ∈ pending s.proc.dispatch ∨ ToCome s k →
      Finmap.lookup k (next env s e).db.needsDispatch = Finmap.lookup k s.db.needsDispatch) :
    Faithful env s₀ (tr ++ [e]) (next env s e) := by
  have hcases : (next env s e).proc.dispatch = s.proc.dispatch ∨
      ∃ w, (next env s e).proc.dispatch = .waiting w := by
    rcases hpc with hpc | hpc
    · exact Or.inl hpc
    · rw [hpc]
      cases s.proc.dispatch with
      | waiting w => exact Or.inr ⟨_, rfl⟩
      | off | iterate | sending | checking | posting | dropping | aborted => exact Or.inl rfl
  rcases hcases with hsame | ⟨w, hw⟩
  · refine h.kept hx he rfl hsame hbegins id (fun _ _ _ _ => rfl) (fun _ hk => hk)
      (fun hr => ⟨hr, le_rfl, fun _ hk => hk⟩) fun k hk => hstored k ?_
    unfold ToCome at hk ⊢
    rwa [hsame, hleaf] at hk
  · have hnone : ∀ k, k ∉ pending (.waiting w) := by
      simp [pending, Passes.inHand, Delivery.keysToDrop]
    refine h.kept hx he rfl hw hbegins (fun _ => trivial) (by simp)
      (fun k hk => absurd hk (hnone k)) False.elim ?_
    rintro k (hk | ⟨hr, _⟩)
    · exact absurd hk (hnone k)
    · rw [hw] at hr
      exact hr.elim

theorem faithful_step (hx : (machine env).Execution s₀ tr s) (h : Faithful env s₀ tr s)
    (he : Enabled env s e) (hkeeps : KeepsPass s e) :
    Faithful env s₀ (tr ++ [e]) (next env s e) := by
  cases e using RunnerStage.event_cases with
  | elsewhere e ho =>
    have hv := RunnerStage.view_elsewhere env s ho
    refine faithful_elsewhere hx he h ?_ (Or.inl (congrArg (·.dispatch) hv))
      (congrArg (·.dispatchLeaf) hv) ?_
    · intro hb
      cases e with
      | main e => cases e <;> first | exact ho | exact hb
      | _ => first | exact ho | exact hb
    · intro k _
      exact congrArg (Finmap.lookup k) (congrArg (·.needsDispatch) hv)
  | start | stop => exact .begins hx he trivial (Or.inr ⟨id, rfl, trivial⟩)
  | connect => exact .begins hx he trivial (Or.inl ⟨rfl, rfl⟩)
  | spawnWatcher | otherCheck =>
    exact faithful_elsewhere hx he h id (Or.inl rfl) rfl fun _ _ => rfl
  | queue i a r n =>
    obtain ⟨w, hw, _⟩ := RunnerStage.view_queue he
    refine faithful_elsewhere hx he h id (Or.inl (congrArg (·.dispatch) hw))
      (congrArg (·.dispatchLeaf) hw) ?_
    intro k _
    exact congrArg (Finmap.lookup k) (congrArg (·.needsDispatch) hw)
  | watcher k e =>
    obtain ⟨w, hw, _⟩ := RunnerStage.view_watcher env s k e
    refine faithful_elsewhere hx he h id (Or.inl (congrArg (·.dispatch) hw))
      (congrArg (·.dispatchLeaf) hw) ?_
    intro k _
    exact congrArg (Finmap.lookup k) (congrArg (·.needsDispatch) hw)
  | wait t e => cases e with
    | report job =>
      refine faithful_elsewhere hx he h id ?_ rfl ?_
      · simp only [next, waitNext]
        split
        · exact Or.inl rfl
        · exact Or.inr rfl
      · intro k hk
        simp only [next, waitNext, Completion.nextDb]
        split
        · rfl
        · next hnew =>
          rw [KvTree.lookup_insert_eq_ite]
          split
          · next hkey =>
            subst hkey
            exact (hkeeps hnew hk).symm
          · rfl
    | progress | again | settle | remove =>
      exact faithful_elsewhere hx he h id (Or.inl rfl) rfl fun _ _ => rfl
  | dispatch d => exact faithful_dispatch hx h he

end Steps

section Results

variable {env : Env} {s₀ s : State} {tr : List Event} {key : String}

theorem execution_faithful (hx : ((machine env).restrict KeepsPass).Execution s₀ tr s)
    (h₀ : Initial s₀) : Faithful env s₀ tr s := by
  refine hx.history (I := fun tr s => Faithful env s₀ tr s) ?_
    fun _ _ _ hx h he => faithful_step hx.of_restrict h he.1 he.2
  have hpc : s₀.proc.dispatch = .off := by rw [h₀.not_running]; rfl
  refine ⟨hpc ▸ trivial, ?_, ?_, fun hr => absurd hr (hpc ▸ id),
    fun _ hcome => absurd hcome.1 (hpc ▸ id)⟩
  · simp [hpc, pending, Passes.inHand, Delivery.keysToDrop]
  · simp [hpc, pending, Passes.inHand, Delivery.keysToDrop]

/-- The value under a key that the dispatcher removes is the one it has sent in this pass. -/
theorem dropped_value_sent (hx : ((machine env).restrict KeepsPass).Execution s₀ tr s)
    (h₀ : Initial s₀) (he : Enabled env s (.dispatch (.drop key))) :
    ∃ value, Finmap.lookup key s.db.needsDispatch = some value ∧
      ∀ v, SentInPass env s₀ tr key v ↔ v = value := by
  obtain ⟨rest, hpc⟩ := he
  have hpc : s.proc.dispatch = .dropping (key :: rest) := hpc
  have h := execution_faithful hx h₀
  have hkey : key ∈ pending s.proc.dispatch := by
    simp [hpc, pending, Delivery.keysToDrop]
  obtain ⟨value, hsent⟩ := h.sent key hkey
  refine ⟨value, h.stored key hkey value hsent, ?_⟩
  intro v
  constructor
  · intro hv
    exact Option.some.inj ((h.stored key hkey v hv).symm.trans (h.stored key hkey value hsent))
  · rintro rfl
    exact hsent

end Results

section Samples

def sampleKey : String := dispatchKey gitHubHandle Sample.id.toDecimal Sample.job.name

theorem trace_runs : ((machine Sample.env).restrict KeepsPass).Runs Sample.state
    Sample.trace := by
  have hsample : (machine Sample.env).Runs Sample.state ((Sample.boot ++ Sample.discover ++
      Sample.ingest ++ Sample.gitWork ++ Sample.testing.take 6) ++ Sample.testing.drop 6) :=
    Sample.runs
  obtain ⟨hbefore, hreport, hafter⟩ := Machine.runs_append.mp hsample
  have h : ((machine Sample.env).restrict KeepsPass).Runs Sample.state ((Sample.boot ++
      Sample.discover ++ Sample.ingest ++ Sample.gitWork ++ Sample.testing.take 6) ++
        Sample.testing.drop 6) := by
    refine Machine.runs_append.mpr ⟨hbefore.restrict ?_, ⟨hreport, fun _ hk => ?_⟩,
      Machine.Runs.restrict hafter ?_⟩
    · simp [Sample.boot, Sample.discover, Sample.ingest, Sample.gitWork, Sample.testing,
        KeepsPass]
    · rcases hk with hk | ⟨_, _, hk⟩
      · exact absurd hk List.not_mem_nil
      · exact absurd hk Finmap.notMem_empty
    · simp [KeepsPass]
  exact h

theorem dropped_value_sent_sample : ∃ value,
    Finmap.lookup sampleKey ((machine Sample.env).run Sample.final
      (Reporting.sampleSending ++ [.dispatch .ends])).db.needsDispatch = some value ∧
    ∀ v, SentInPass Sample.env Sample.state
      (Sample.trace ++ (Reporting.sampleSending ++ [.dispatch .ends])) sampleKey v ↔ v = value := by
  have hpass : (machine Sample.env).Runs Sample.final
      (Reporting.sampleSending ++ [.dispatch .ends]) :=
    Machine.runs_append.mpr ⟨Reporting.sampleSending_runs, ⟨_, _, rfl, by decide⟩, trivial⟩
  have hpass' := hpass.restrict (C := KeepsPass) (by simp [Reporting.sampleSending,
    KeepsPass])
  exact dropped_value_sent (trace_runs.execution.append hpass'.execution) Sample.state_initial
    ⟨_, rfl⟩

def failedJob : RunnerResult := ⟨"build it", .completed, .fail, none, none⟩

def watching (k : ℕ) : List Event :=
  [.watcher k (.read (.whole Sample.queued) true), .watcher k (.take "300"),
    .watcher k (.startWork "300"), .watcher k (.move "300"), .watcher k (.spawn "300")]

def reporting (k : ℕ) (job : RunnerResult) : List Event :=
  [.wait ⟨k, "300", [], .polling⟩ (.progress [job]),
    .wait ⟨k, "300", [], .reporting [job] [job]⟩ (.report job)]

def firstResult : KvTree String RunnerResult :=
  (∅ : KvTree String RunnerResult).insert "github 300 build it" Sample.job

/-- Two tasks for one series, one for each runner. -/
def twoTasks : List Event :=
  Watchers.pairTrace.take 34 ++ (watching 0 ++
    ([.worker 0 Sample.id (.work (.push "origin")),
      .worker 0 Sample.id (.work (.queue "origin" "github"))] ++
        (watching 1 ++ (reporting 0 Sample.job ++ [.dispatch (.read (.whole firstResult) true),
          .dispatch (.take "github 300 build it")]))))

def overwriting : List Event :=
  [.dispatch (.getSeries 7), .dispatch .unique,
    .dispatch (.post Sample.id 7 (Delivery.checkOf Sample.job))] ++
      (reporting 1 failedJob ++ [.dispatch .ends])

theorem twoTasks_runs : (machine Sample.env).Runs Sample.state twoTasks := by
  have hpair : (machine Sample.env).Runs Sample.state
      (Watchers.pairTrace.take 34 ++ Watchers.pairTrace.drop 34) := Watchers.pairTrace_runs
  obtain ⟨hbefore, _⟩ := Machine.runs_append.mp hpair
  refine Machine.runs_append.mpr ⟨hbefore, Machine.runs_append.mpr
    ⟨⟨⟨_, rfl, KvTree.Leaf.reads_whole ?_⟩, ⟨_, rfl, ?_⟩, rfl, ⟨rfl, ?_⟩, rfl, trivial⟩,
      Machine.runs_append.mpr
      ⟨⟨⟨_, rfl, _, rfl, _, _, rfl, rfl, rfl⟩, ⟨_, rfl, _, rfl, _, rfl⟩, trivial⟩,
        Machine.runs_append.mpr
        ⟨⟨⟨_, rfl, KvTree.Leaf.reads_whole ?_⟩, ⟨_, rfl, ?_⟩, rfl, ⟨rfl, ?_⟩, rfl, trivial⟩,
          Machine.runs_append.mpr ⟨⟨⟨?_, rfl⟩, ⟨List.mem_cons_self, _, _, rfl⟩, trivial⟩,
            ⟨⊥, [], rfl, KvTree.Leaf.reads_whole ?_⟩, ⟨⊥, [], rfl, ?_⟩, trivial⟩⟩⟩⟩⟩
  · decide
  · decide
  · decide
  · decide
  · decide
  · decide
  · exact List.mem_cons_of_mem _ List.mem_cons_self
  · decide
  · decide

theorem overwriting_runs : (machine Sample.env).Runs
    ((machine Sample.env).run Sample.state twoTasks) overwriting := by
  have hjob : parseEntry "github 300 build it" = some ("github", Sample.id, "build it") := rfl
  refine ⟨⟨rfl, _, Sample.job, [], _, _, _, rfl, hjob, rfl⟩, ⟨_, _, _, _, _, rfl, ?_⟩,
    ⟨_, _, _, rfl, rfl⟩, ⟨?_, rfl⟩, ⟨List.mem_cons_self, _, _, rfl⟩, ⟨_, _, rfl, ?_⟩, trivial⟩
  · rintro ⟨c, hc, _⟩
    cases hc
  · exact List.mem_cons_of_mem _ List.mem_cons_self
  · decide

/-- The failure is removed unsent. -/
theorem unsent_result_dropped : ∃ tr s key sent stored,
    (machine Sample.env).Execution Sample.state tr s ∧
    Enabled Sample.env s (.dispatch (.drop key)) ∧
    SentInPass Sample.env Sample.state tr key sent ∧
    Finmap.lookup key s.db.needsDispatch = some stored ∧ stored ≠ sent := by
  refine ⟨twoTasks ++ overwriting, _, "github 300 build it", Sample.job, failedJob,
    twoTasks_runs.execution.append overwriting_runs.execution, ⟨_, rfl⟩,
    ⟨twoTasks, overwriting, [], rfl, rfl, ?_⟩, ?_, ?_⟩
  · simp [overwriting, reporting, BeginsPass]
  · decide
  · decide

end Samples

end Snowpatch.Overwrites
