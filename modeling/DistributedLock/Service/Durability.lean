import DistributedLock.Service.SessionLog

/-! What a session leaves in the log is there for good. The calls of all nodes put their
entries into one log: no two share an entry, a session that begins after another was
granted comes behind it, and every leader of the same or a later term has both. -/

namespace DistributedLock.Service

open Library Raft Table

namespace Deployment

variable {ι F : Type*} [DecidableEq ι] [Arithmetic F]

/-- All runs of the deployment, with the entries of the sessions. -/
abbrev recorded (cfg : DeploymentConfig ι F) :
    System (Deployment ι F × List (SessionEntry ι F)) (DeploymentAction ι F) :=
  (system cfg).logging (sessionEntries cfg)

/-- No request is answered over a stale tail, and what a call is told of is its own. -/
def Faithful (s : Deployment ι F × List (SessionEntry ι F)) (d : DeploymentAction ι F) : Prop :=
  s.1.FreshAnswers d ∧ OwnCommits s d

instance (s : Deployment ι F × List (SessionEntry ι F)) (d : DeploymentAction ι F) :
    Decidable (Faithful s d) := inferInstanceAs (Decidable (_ ∧ _))

/-- The history of a step, if it is one of the Raft layers. -/
theorem onward_step [Fintype ι] {cfg : DeploymentConfig ι F} {s s' : Deployment ι F}
    {d : DeploymentAction ι F} {g : History ι F} (h : FreshInv cfg.cluster s.cluster g)
    (hstep : s.step cfg d = some s') (hfresh : s.FreshAnswers d) :
    ∃ g', FreshInv cfg.cluster s'.cluster g' ∧ Onward s.cluster g s'.cluster g' := by
  rcases cluster_cases hstep hfresh with hsame | ⟨b, hb, hcluster⟩
  · exact ⟨g, hsame ▸ h, hsame ▸ .refl _ _⟩
  · exact ⟨_, h.step hcluster hb, .step h.known hcluster⟩

theorem confirmed_step [Fintype ι] {cfg : DeploymentConfig ι F} {s s' : Deployment ι F}
    {d : DeploymentAction ι F} {g : History ι F} (h : FreshInv cfg.cluster s.cluster g)
    (hstep : s.step cfg d = some s') (hfresh : s.FreshAnswers d) {i : ι} {r : SessionEntry ι F}
    (hr : Confirmed (s.nodes i).raft r) : Confirmed (s'.nodes i).raft r := by
  rcases cluster_cases hstep hfresh with hsame | ⟨b, -, hcluster⟩
  · have hprocs : (s'.nodes i).raft = (s.nodes i).raft := congrArg (·.procs i) hsame
    rwa [hprocs]
  · exact h.kept_step hcluster hr.1 hr.2

theorem handedOver_step {cfg : DeploymentConfig ι F} {s s' : Deployment ι F}
    {d : DeploymentAction ι F} (hstep : s.step cfg d = some s') (hfresh : s.FreshAnswers d) {i : ι}
    {r : SessionEntry ι F} (hr : HandedOver (s.nodes i).raft r) :
    HandedOver (s'.nodes i).raft r := by
  rcases cluster_cases hstep hfresh with hsame | ⟨b, -, hcluster⟩
  · have hprocs : (s'.nodes i).raft = (s.nodes i).raft := congrArg (·.procs i) hsame
    rwa [hprocs]
  · exact (Cluster.step_apply hcluster i).calls_isPrefix.subset hr

/-- What is known of the sessions of a run. -/
structure SessionsInv [Fintype ι] (cfg : DeploymentConfig ι F)
    (s : Deployment ι F × List (SessionEntry ι F)) (g : History ι F) : Prop where
  fresh : FreshInv cfg.cluster s.1.cluster g
  made : ∀ r ∈ s.2, 0 < r.index ∧ (g.termLog r.entry.term)[r.index]? = some r.entry
  distinct : s.2.Pairwise fun r r' => r.entry.term = r'.entry.term → r.index < r'.index
  calls : ∀ i k c, (s.1.nodes i).acquires[k]? = some c →
    EntriesOk (cfg.service i) (s.1.nodes i).raft (ownEntries s.2 i k) c
  unborn : ∀ i k, (s.1.nodes i).acquires.length ≤ k → ownEntries s.2 i k = []

namespace SessionsInv

variable [Fintype ι] {cfg : DeploymentConfig ι F}
  {s s' : Deployment ι F × List (SessionEntry ι F)} {d : DeploymentAction ι F} {g g' : History ι F}

theorem init (cfg : DeploymentConfig ι F) :
    SessionsInv cfg ((recorded cfg).init) (History.start cfg.cluster) := by
  refine ⟨.init cfg.cluster, fun r hr => (by cases hr), .nil, fun i k c hc => ?_, fun _ _ _ => rfl⟩
  simp [recorded, System.logging, system, start, DsccNode.start] at hc

theorem trusted (h : SessionsInv cfg s g) {i : ι} (hrun : (s.1.nodes i).raft.halted = false)
    (k : ℕ) : Trusted (s.1.nodes i).raft (ownEntries s.2 i k) := by
  refine ⟨fun r hr hterm => ?_, fun r hr hconfirmed hle => ?_, fun r hhanded => ?_⟩
  · obtain ⟨e, he, heterm⟩ := Option.map_eq_some_iff.mp hterm
    have hmade := (h.made r (mem_ownEntries.mp hr).1).2
    have hne : g.termLog r.entry.term ≠ [] := by
      rintro hnil
      rw [hnil] at hmade
      simp at hmade
    have hleader := h.fresh.known.log.leader _ hne
    rw [he, (h.fresh.known.log.node i).coherent.eq_of_stamp_eq hleader.coherent he hmade heterm]
  · exact h.fresh.handed_over hrun (h.made r (mem_ownEntries.mp hr).1).1 hle hconfirmed.2
  · exact (List.getElem?_eq_some_iff.mp (h.fresh.applied i _ _ hhanded).2).1

/-- What a step appends was not in the log of its term before. -/
theorem new_entry (h : SessionsInv cfg s g) (hstep : s.1.step cfg d = some s'.1)
    (hg' : FreshInv cfg.cluster s'.1.cluster g') {r : SessionEntry ι F}
    (hr : r ∈ s.1.sessionEntries cfg d) :
    0 < r.index ∧ (g.termLog r.entry.term).length = r.index ∧
      (g'.termLog r.entry.term)[r.index]? = some r.entry := by
  rcases sessionEntries_cases hstep with hnil | ⟨r', hr', hlead, hindex, hterm, hlead', hterm', hlog⟩
  · rw [hnil] at hr
    cases hr
  · rw [hr', List.mem_singleton] at hr
    subst hr
    have hleads := h.fresh.known.log.leads _ hlead
    have hleads' := hg'.known.log.leads _ hlead'
    have hpos := (List.getElem?_eq_some_iff.mp (h.fresh.known.log.node r.node).sentinel).1
    rw [hterm, hleads, hindex]
    refine ⟨hpos, rfl, ?_⟩
    rw [← hterm', hleads', hlog]
    simp

/-- The calls of a node after a step. -/
theorem calls_step (h : SessionsInv cfg s g) (hstep : s.1.step cfg d = some s'.1)
    (hlog : s'.2 = s.2 ++ s.1.sessionEntries cfg d) (hC : Faithful s d) :
    (∀ i k c, (s'.1.nodes i).acquires[k]? = some c →
      EntriesOk (cfg.service i) (s'.1.nodes i).raft (ownEntries s'.2 i k) c) ∧
    ∀ i k, (s'.1.nodes i).acquires.length ≤ k → ownEntries s'.2 i k = [] := by
  have hmono : ∀ {i k c}, EntriesOk (cfg.service i) (s.1.nodes i).raft (ownEntries s.2 i k) c →
      EntriesOk (cfg.service i) (s'.1.nodes i).raft (ownEntries s.2 i k) c := fun hok =>
    hok.mono (fun r _ => confirmed_step h.fresh hstep hC.1) fun r => handedOver_step hstep hC.1
  suffices hall : ∀ i, (∀ k c, (s'.1.nodes i).acquires[k]? = some c →
      EntriesOk (cfg.service i) (s'.1.nodes i).raft (ownEntries s'.2 i k) c) ∧
      ∀ k, (s'.1.nodes i).acquires.length ≤ k → ownEntries s'.2 i k = [] from
    ⟨fun i => (hall i).1, fun i => (hall i).2⟩
  intro i
  rcases acquires_cases hstep i with ⟨hsame, hnone⟩ | ⟨request, now, hnew, hnone⟩ |
    ⟨l, x, c₀, p, t, c', rfl, hrun, hl, hcall, hset⟩
  · refine ⟨fun k c hk => ?_, fun k hk => ?_⟩ <;>
      rw [hlog, ownEntries_append, hnone, List.append_nil]
    · exact hmono (h.calls i k c (hsame ▸ hk))
    · exact h.unborn i k (hsame ▸ hk)
  · rw [hlog, hnone, List.append_nil, hnew]
    refine ⟨fun k c hk => ?_, fun k hk => h.unborn i k ?_⟩
    · rcases getElem?_of_concat hk with hk | ⟨rfl, rfl⟩
      · exact hmono (h.calls i k c hk)
      · rw [h.unborn i _ le_rfl]
        exact .arrive _ _ _ _
    · rw [List.length_append] at hk
      omega
  · have hl' := (List.getElem?_eq_some_iff.mp hl).1
    rw [hset, hlog, sessionEntries_acquire hl]
    refine ⟨fun k c hk => ?_, fun k hk => ?_⟩ <;> rw [ownEntries_append]
    · rcases eq_or_ne k l with rfl | hne
      · rw [List.getElem?_set_self hl', Option.some.injEq] at hk
        subst hk
        rw [ownEntries_self (fun r hr => AcquireCall.mem_sessionEntries hr)]
        have hok := (h.calls i k c₀ hl).step (i := i) (k := k) (h.trusted hrun k) hrun
          (hC.2 c₀ hl) hcall
        exact hok.mono (fun r _ => confirmed_step h.fresh hstep hC.1) fun r =>
          handedOver_step hstep hC.1
      · rw [List.getElem?_set_ne hne.symm] at hk
        rw [ownEntries_of_ne (fun r hr => AcquireCall.mem_sessionEntries hr) (by tauto),
          List.append_nil]
        exact hmono (h.calls i k c hk)
    · rw [List.length_set] at hk
      rw [h.unborn i k hk, ownEntries_of_ne (fun r hr => AcquireCall.mem_sessionEntries hr)
        (by rintro ⟨-, rfl⟩; omega)]
      rfl

theorem step (h : SessionsInv cfg s g) (hstep : ((recorded cfg).guard Faithful).step s d = some s') :
    ∃ g', SessionsInv cfg s' g' ∧ Onward s.1.cluster g s'.1.cluster g' := by
  obtain ⟨hC, hstep⟩ := System.guard_step.mp hstep
  obtain ⟨hstep, hlog⟩ := System.logging_step.mp hstep
  obtain ⟨g', hg', hon⟩ := onward_step h.fresh hstep hC.1
  obtain ⟨hcalls, hunborn⟩ := h.calls_step hstep hlog hC
  have hnew := fun r => h.new_entry hstep hg' (r := r)
  refine ⟨g', ⟨hg', fun r hr => ?_, ?_, hcalls, hunborn⟩, hon⟩
  · rw [hlog] at hr
    rcases List.mem_append.mp hr with hold | hr
    · obtain ⟨hpos, hget⟩ := h.made r hold
      exact ⟨hpos, prefix_iff_forall_getElem?.mp (hon.termLog _) _ _ hget⟩
    · exact ⟨(hnew r hr).1, (hnew r hr).2.2⟩
  · rw [hlog]
    refine List.pairwise_append.mpr ⟨h.distinct, ?_, fun r hr r' hr' hterm => ?_⟩
    · rcases sessionEntries_cases hstep with hnil | ⟨r, hr, -⟩
      · rw [hnil]; exact .nil
      · rw [hr]; exact List.pairwise_singleton _ _
    · rw [← (hnew r' hr').2.1, ← hterm]
      exact (List.getElem?_eq_some_iff.mp (h.made r hr).2).1

/-- Committed at one index, two entries are one, and so are their records. -/
theorem eq_of_index_eq (h : SessionsInv cfg s g) {i j : ι} {r r' : SessionEntry ι F}
    (hr : r ∈ s.2) (hr' : r' ∈ s.2) (hhanded : HandedOver (s.1.nodes i).raft r)
    (hhanded' : HandedOver (s.1.nodes j).raft r') (hindex : r'.index = r.index) : r' = r := by
  obtain ⟨hle, hget⟩ := h.fresh.applied i _ _ hhanded
  obtain ⟨hle', hget'⟩ := h.fresh.applied j _ _ hhanded'
  rw [hindex] at hle' hget'
  have hentry := h.fresh.commit.agree h.fresh.known hle hle' hget hget'
  have hterm := congrArg LogEntry.term hentry
  obtain ⟨a, ha, rfl⟩ := List.getElem_of_mem hr
  obtain ⟨b, hb, rfl⟩ := List.getElem_of_mem hr'
  rcases Nat.lt_trichotomy a b with hlt | rfl | hlt
  · have := List.pairwise_iff_getElem.mp h.distinct a b ha hb hlt hterm
    omega
  · rfl
  · have := List.pairwise_iff_getElem.mp h.distinct b a hb ha hlt hterm.symm
    omega

theorem released_of_granted (h : SessionsInv cfg s g) {i : ι} {k : ℕ} {c : AcquireCall F}
    (hc : (s.1.nodes i).acquires[k]? = some c) (hgranted : c.response.granted = true) :
    AcquireRelease (cfg.service i) (s.1.nodes i).raft (ownEntries s.2 i k) c
      (HandedOver (s.1.nodes i).raft) := by
  obtain ⟨hentries, hsilent⟩ := h.calls i k c hc
  have hclosed : c.isOpen = false := by
    cases hopen : c.isOpen with
    | false => rfl
    | true => rw [hsilent hopen] at hgranted; cases hgranted
  have hstage : c.logStage = .ended := by
    unfold AcquireCall.isOpen at hclosed
    unfold AcquireCall.logStage
    split at hclosed
    · rename_i status hpc; rw [hpc]
    · cases hclosed
  rw [hstage] at hentries
  exact hentries hgranted

/-- A call that has come as far as its Qdrant operation, or has been granted. -/
theorem entries_of_reached (h : SessionsInv cfg s g) {i : ι} {k : ℕ} {c : AcquireCall F}
    (hc : (s.1.nodes i).acquires[k]? = some c)
    (hreached : c.underLock = true ∨ c.response.granted = true) :
    ∃ r ∈ ownEntries s.2 i k, r.Stamps (c.acquireEntry (cfg.service i)) ∧
      HandedOver (s.1.nodes i).raft r := by
  rcases hreached with hunder | hgranted
  · exact (h.calls i k c hc).exists_acquire hunder
  · exact (h.released_of_granted hc hgranted).exists_acquire

theorem exists_of_run {as : List (DeploymentAction ι F)}
    (h : ((recorded cfg).guard Faithful).exec as = some s) : ∃ g, SessionsInv cfg s g :=
  ((recorded cfg).guard Faithful).invariant (P := fun s => ∃ g, SessionsInv cfg s g)
    ⟨_, .init cfg⟩ (fun _ _ _ ⟨_, hg⟩ hstep => (hg.step hstep).imp fun _ h => h.1) h

end SessionsInv

/-! ### From one moment to a later one -/

/-- What is known of a later state of a run, beside the earlier one. -/
structure Later [Fintype ι] (cfg : DeploymentConfig ι F)
    (t : Deployment ι F × List (SessionEntry ι F)) (g : History ι F)
    (u : Deployment ι F × List (SessionEntry ι F)) (g' : History ι F) : Prop where
  inv : SessionsInv cfg u g'
  onward : Onward t.1.cluster g u.1.cluster g'
  kept : ∀ i r, Confirmed (t.1.nodes i).raft r → Confirmed (u.1.nodes i).raft r
  new : ∃ es, u.2 = t.2 ++ es ∧ ∀ r ∈ es, (g.termLog r.entry.term).length ≤ r.index

namespace Later

variable [Fintype ι] {cfg : DeploymentConfig ι F}
  {t u u' : Deployment ι F × List (SessionEntry ι F)} {g g' : History ι F}

theorem step {d : DeploymentAction ι F} (h : Later cfg t g u g')
    (hstep : ((recorded cfg).guard Faithful).step u d = some u') : ∃ g'', Later cfg t g u' g'' := by
  obtain ⟨g'', hinv, hon⟩ := h.inv.step hstep
  obtain ⟨hC, hstep⟩ := System.guard_step.mp hstep
  obtain ⟨hstep, hlog⟩ := System.logging_step.mp hstep
  obtain ⟨es, hes, hnew⟩ := h.new
  refine ⟨g'', hinv, h.onward.trans hon, fun i r hr =>
    confirmed_step h.inv.fresh hstep hC.1 (h.kept i r hr), es ++ u.1.sessionEntries cfg d, ?_, ?_⟩
  · rw [hlog, hes, List.append_assoc]
  · intro r hr
    rcases List.mem_append.mp hr with hr | hr
    · exact hnew r hr
    · rw [← (h.inv.new_entry hstep hinv.fresh hr).2.1]
      exact (h.onward.termLog _).length_le

theorem exists_of_run {bs : List (DeploymentAction ι F)} (h : SessionsInv cfg t g)
    (hrun : ((recorded cfg).guard Faithful).execFrom t bs = some u) : ∃ g', Later cfg t g u g' :=
  ((recorded cfg).guard Faithful).execFrom_invariant (P := fun u => ∃ g', Later cfg t g u g')
    ⟨g, h, .refl _ _, fun _ _ => id, [], by simp, by simp⟩ (fun _ _ _ ⟨_, hg⟩ => hg.step) hrun

end Later

/-! ### A session, a takeover and another session -/

/-- The session is granted. -/
def grantRun : List (DeploymentAction (Fin 3) ℤ) :=
  sessionRun ++ advance 0 2 ++ replicateTo 0 1 1 ++ applyNext 0 ++ advance 0 3

/-- Node 2 wins term 2 with the vote of node 3, and another agent comes to it. -/
def takeoverRun : List (DeploymentAction (Fin 3) ℤ) :=
  [.network (.startElection 1), .network (.sendVoteRequest 1), .network (.voteRequestFailed 1),
    .network (.sendVoteRequest 1), .network (.handleRequestVote 2), .network (.receiveVote 1),
    .node 1 .finishElection, .node 1 (.acquireGuard ⟨"b", [1, 0], .write⟩ 0)] ++ advance 1 4 ++
    replicateTo 1 0 2 ++ applyNext 1 ++ applyNext 1 ++ applyNext 1 ++ advance 1 2

/-! ### What a session can rely on -/

variable [Fintype ι]

/-- A call that is at its Qdrant operation, or anywhere behind it as long as its first
attempt to release has not failed, has its own ACQUIRE in the log and handed over to the
lock table, which no other entry of a session shares an index with. A call that is granted
has its own RELEASE behind it as well. -/
theorem session_logged (cfg : DeploymentConfig ι F) (as : List (DeploymentAction ι F))
    (s : Deployment ι F × List (SessionEntry ι F))
    (h : ((recorded cfg).guard Faithful).exec as = some s) (i : ι) (k : ℕ) (c : AcquireCall F)
    (hc : (s.1.nodes i).acquires[k]? = some c)
    (hreached : c.underLock = true ∨ c.response.granted = true) :
    ∃ r ∈ ownEntries s.2 i k, r.Stamps (c.acquireEntry (cfg.service i)) ∧
      HandedOver (s.1.nodes i).raft r ∧
      (c.response.granted = true → ∃ r' ∈ ownEntries s.2 i k, r'.Stamps (.release c.agentId) ∧
        HandedOver (s.1.nodes i).raft r' ∧ r.index < r'.index) ∧
      ∀ j, ∀ r' ∈ s.2, HandedOver (s.1.nodes j).raft r' → r'.index = r.index → r' = r := by
  obtain ⟨g, hg⟩ := SessionsInv.exists_of_run h
  have hshare : ∀ r ∈ ownEntries s.2 i k, HandedOver (s.1.nodes i).raft r →
      ∀ j, ∀ r' ∈ s.2, HandedOver (s.1.nodes j).raft r' → r'.index = r.index → r' = r :=
    fun r hr hhanded j r' hr' hhanded' =>
      hg.eq_of_index_eq (mem_ownEntries.mp hr).1 hr' hhanded hhanded'
  by_cases hgranted : c.response.granted = true
  · obtain ⟨r, r', hown, hr, hhanded, hr', hlt, hhanded'⟩ := hg.released_of_granted hc hgranted
    have hmem : r ∈ ownEntries s.2 i k := by simp [hown]
    exact ⟨r, hmem, hr, hhanded, fun _ => ⟨r', by simp [hown], hr', hhanded', hlt⟩,
      hshare r hmem hhanded⟩
  · obtain ⟨r, hmem, hr, hhanded⟩ := hg.entries_of_reached hc hreached
    exact ⟨r, hmem, hr, hhanded, fun hcontra => absurd hcontra hgranted, hshare r hmem hhanded⟩

theorem session_logged_grant :
    ∃ s : Deployment (Fin 3) ℤ × List (SessionEntry (Fin 3) ℤ),
      (recorded .test).exec grantRun = some s ∧ ∃ c, (s.1.nodes 0).acquires[0]? = some c ∧
        c.response.granted = true ∧ ∃ r ∈ ownEntries s.2 0 0, r.Stamps (.acquire "a" [1, 0] 1) ∧
          ∃ r' ∈ ownEntries s.2 0 0, r'.Stamps (.release "a") ∧ r.index < r'.index := by
  obtain ⟨s, hs, c, hc, hgranted, hrequest⟩ := ((recorded .test).guard Faithful).exists_exec
    grantRun (fun s => ∃ c ∈ (s.1.nodes 0).acquires[0]?, c.response.granted = true ∧
      (c.agentId = "a" ∧ c.embedding = [1, 0])) (by decide +kernel)
  obtain ⟨r, hr, hacquire, -, hrelease, -⟩ :=
    session_logged .test grantRun s hs 0 0 c hc (Or.inr hgranted)
  obtain ⟨r', hr', hstamps, -, hlt⟩ := hrelease hgranted
  refine ⟨s, System.exec_of_guard hs, c, hc, hgranted, r, hr, ?_, r', hr', ?_, hlt⟩
  · rwa [AcquireCall.acquireEntry, hrequest.1, hrequest.2] at hacquire
  · rwa [hrequest.1] at hstamps

/-- What a node has handed over of a session is in the log of every node that leads in the
same or a later term from then on, and any node that comes to its index hands it over. -/
theorem session_survives (cfg : DeploymentConfig ι F) (as bs : List (DeploymentAction ι F))
    (t u : Deployment ι F × List (SessionEntry ι F))
    (ht : ((recorded cfg).guard Faithful).exec as = some t)
    (hu : ((recorded cfg).guard Faithful).execFrom t bs = some u) (i j : ι)
    (r : SessionEntry ι F) (hr : r ∈ t.2) (hhanded : HandedOver (t.1.nodes i).raft r) :
    ((u.1.nodes j).raft.node.state = .leader →
        (t.1.nodes i).raft.node.currentTerm ≤ (u.1.nodes j).raft.node.currentTerm →
        (u.1.nodes j).raft.node.log[r.index]? = some r.entry) ∧
      (r.index ≤ (u.1.nodes j).raft.calls.length → HandedOver (u.1.nodes j).raft r) := by
  obtain ⟨g, hg⟩ := SessionsInv.exists_of_run ht
  obtain ⟨g', hlater⟩ := Later.exists_of_run hg hu
  have hfresh := hlater.inv.fresh
  have hconfirmed : Confirmed (t.1.nodes i).raft r := hg.fresh.applied i _ _ hhanded
  constructor
  · intro hlead hterm
    have hleads : g'.termLog (u.1.nodes j).raft.node.currentTerm = (u.1.nodes j).raft.node.log :=
      hfresh.known.log.leads j hlead
    have hleader : LogOk g'.termLog _ (u.1.nodes j).raft.node.log := hfresh.known.log.node j
    rw [← hleads] at hleader ⊢
    have hpre := ((hg.fresh.commit.commit i).mono hlater.onward.termLog hlater.onward.held
      le_rfl).prefix_termLog hfresh.known.log hfresh.known.vote
      ((hg.fresh.known.log.node i).mono hlater.onward.termLog le_rfl) hterm hleader
    refine prefix_iff_forall_getElem?.mp hpre _ _ ?_
    exact (List.getElem?_take_of_lt (Nat.lt_succ_of_le hconfirmed.1)).trans hconfirmed.2
  · intro hlen
    have hpos := (hg.made r hr).1
    obtain ⟨⟨m, e⟩, hget⟩ : ∃ x, (u.1.nodes j).raft.calls[r.index - 1]? = some x :=
      ⟨_, List.getElem?_eq_getElem (by omega)⟩
    obtain rfl : m = r.index := by
      have := (hfresh.apply j).index _ _ _ hget
      omega
    have hmem := List.mem_of_getElem? hget
    obtain ⟨hle, he⟩ := hfresh.applied j _ _ hmem
    obtain ⟨hle', he'⟩ := hlater.kept i r hconfirmed
    obtain rfl := hfresh.commit.agree hfresh.known hle hle' he he'
    exact hmem

theorem session_survives_takeover :
    ∃ t u : Deployment (Fin 3) ℤ × List (SessionEntry (Fin 3) ℤ),
      (recorded .test).exec grantRun = some t ∧
      (recorded .test).execFrom t takeoverRun = some u ∧
      (u.1.nodes 1).raft.node.state = .leader ∧ ∃ r ∈ t.2, r.index = 2 ∧
        (u.1.nodes 1).raft.node.log[r.index]? = some r.entry := by
  obtain ⟨t, u, ht, hu, hlead, hterm, r, hr, hindex, hhanded⟩ :=
    ((recorded .test).guard Faithful).exists_exec_execFrom grantRun takeoverRun
      (fun t u => (u.1.nodes 1).raft.node.state = .leader ∧
        (t.1.nodes 0).raft.node.currentTerm ≤ (u.1.nodes 1).raft.node.currentTerm ∧
        ∃ r ∈ t.2, r.index = 2 ∧ (r.index, r.entry) ∈ (t.1.nodes 0).raft.calls)
      (by decide +kernel)
  refine ⟨t, u, System.exec_of_guard ht, System.execFrom_of_guard hu, hlead, r, hr, hindex, ?_⟩
  exact (session_survives .test grantRun takeoverRun t u ht hu 0 1 r hr hhanded).1 hlead hterm

/-- Sessions follow each other as their clients see it, on whatever nodes they are: the
ACQUIRE of a call that came in after another was granted lies behind the other's RELEASE. -/
theorem sessions_in_order (cfg : DeploymentConfig ι F) (as bs : List (DeploymentAction ι F))
    (t u : Deployment ι F × List (SessionEntry ι F))
    (ht : ((recorded cfg).guard Faithful).exec as = some t)
    (hu : ((recorded cfg).guard Faithful).execFrom t bs = some u) (i j : ι) (k l : ℕ)
    (c d : AcquireCall F) (hc : (t.1.nodes i).acquires[k]? = some c)
    (hgranted : c.response.granted = true) (hl : (t.1.nodes j).acquires.length ≤ l)
    (hd : (u.1.nodes j).acquires[l]? = some d)
    (hreached : d.inQdrantPhase = true ∨ d.response.granted = true) :
    ∃ r ∈ ownEntries t.2 i k, ∃ r' ∈ ownEntries u.2 j l, r.Stamps (.release c.agentId) ∧
      r'.Stamps (d.acquireEntry (cfg.service j)) ∧ HandedOver (t.1.nodes i).raft r ∧
      HandedOver (u.1.nodes j).raft r' ∧ r.index < r'.index := by
  obtain ⟨g, hg⟩ := SessionsInv.exists_of_run ht
  obtain ⟨g', hlater⟩ := Later.exists_of_run hg hu
  have hfresh := hlater.inv.fresh
  obtain ⟨r₀, r, hown, -, -, hr, -, hhanded⟩ := hg.released_of_granted hc hgranted
  obtain ⟨r', hmem', hr', hhanded'⟩ := hlater.inv.entries_of_reached hd
    (hreached.imp_left AcquireCall.underLock_of_inQdrantPhase)
  refine ⟨r, by simp [hown], r', hmem', hr, hr', hhanded, hhanded', ?_⟩
  -- the later call has appended all its entries since
  obtain ⟨es, hes, hnew⟩ := hlater.new
  have hsince : r' ∈ es := by
    rw [hes, ownEntries_append, hg.unborn j l hl, List.nil_append] at hmem'
    exact (mem_ownEntries.mp hmem').1
  by_contra hle
  -- an entry below the RELEASE was committed before
  obtain ⟨hcommit, hget⟩ : Confirmed (t.1.nodes i).raft r := hg.fresh.applied i _ _ hhanded
  have hlt := (List.getElem?_eq_some_iff.mp hget).1
  obtain ⟨e, he⟩ : ∃ e, (t.1.nodes i).raft.node.log[r'.index]? = some e :=
    ⟨_, List.getElem?_eq_getElem (by omega)⟩
  obtain ⟨hle₁, he₁⟩ := hlater.kept i ⟨i, k, r'.index, e⟩
    ⟨(not_lt.mp hle).trans hcommit, he⟩
  obtain ⟨hle₂, he₂⟩ := hfresh.applied j _ _ hhanded'
  obtain rfl : e = r'.entry := hfresh.commit.agree hfresh.known hle₁ hle₂ he₁ he₂
  have hlt' : r'.index < (t.1.cluster.node i).log.length := (not_lt.mp hle).trans_lt hlt
  have hlen := ((hg.fresh.known.log.node i).coherent _ _ he).length_le
  have := hnew r' hsince
  rw [List.length_take] at hlen
  omega

theorem sessions_in_order_takeover :
    ∃ t u : Deployment (Fin 3) ℤ × List (SessionEntry (Fin 3) ℤ),
      (recorded .test).exec grantRun = some t ∧
      (recorded .test).execFrom t takeoverRun = some u ∧
      ∃ r ∈ ownEntries t.2 0 0, ∃ r' ∈ ownEntries u.2 1 0, r.index < r'.index := by
  obtain ⟨t, u, ht, hu, c, hc, hgranted, hlen, d, hd, hphase⟩ :=
    ((recorded .test).guard Faithful).exists_exec_execFrom grantRun takeoverRun
      (fun t u => ∃ c ∈ (t.1.nodes 0).acquires[0]?, c.response.granted = true ∧
        (t.1.nodes 1).acquires.length ≤ 0 ∧
        ∃ d ∈ (u.1.nodes 1).acquires[0]?, d.inQdrantPhase = true) (by decide +kernel)
  obtain ⟨r, hr, r', hr', -, -, -, -, hlt⟩ := sessions_in_order .test grantRun takeoverRun t u
    ht hu 0 1 0 0 c d hc hgranted hlen hd (Or.inl hphase)
  exact ⟨t, u, System.exec_of_guard ht, System.execFrom_of_guard hu, r, hr, r', hr', hlt⟩

end Deployment

end DistributedLock.Service
