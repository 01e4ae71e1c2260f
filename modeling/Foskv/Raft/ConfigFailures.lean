import Foskv.Raft.Membership

/-! Changes of the configuration that fail: what they leave of the file, the map of the peers and
the JSON value. -/
namespace Foskv.Raft
open Generic

/-- Every operation on the temporary file succeeds. -/
def IoOutcome.Completes (io : IoOutcome) : Prop :=
  io.opened = true ∧ io.failsAfter = none ∧ io.renamed = true

/-- `json_` after a change of its nodes. -/
def editedJson (edit : Json → Attempt Json) (json : Json) : Attempt Json := do
  let (json,nodes) ← json.subscript nodesKey
  return json.put nodesKey (← edit nodes)

/-- A change in the number of the nodes shows in the JSON value. -/
theorem editedJson_ne {edit : Json → Attempt Json} {json json' : Json}
    (hedit : ∀ nodes nodes', edit nodes = .ok nodes' →
      nodes'.elements.length ≠ nodes.elements.length)
    (h : editedJson edit json = .ok json') : json' ≠ json := by
  obtain ⟨⟨opened,nodes⟩,hsubscript,h⟩ := bind_eq_ok.mp h
  obtain ⟨nodes',hnodes',h⟩ := bind_eq_ok.mp h
  obtain rfl := Except.ok.inj h
  have hfield := (Json.subscript_eq_ok hsubscript).1
  have hput := (Json.put_spec nodes' hfield).1
  intro hsame
  rw [hsame] at hput
  have hback : (.ok (opened,nodes) : Attempt (Json × Json)) = .ok (json,nodes') :=
    hsubscript.symm.trans (Json.subscript_of_field? hput)
  obtain rfl := (Prod.mk.inj (Except.ok.inj hback)).2
  exact hedit nodes nodes hnodes' rfl

section Saving

variable [ConfigLibraries]
open ConfigLibraries

section Static
variable {fs : FileSystem} {io : IoOutcome} {path : Path} {clusterId : UInt64} {name : Bytes}
  {nodes : List NodeInfo} {acc : Collected}

/-- Where the file exists, these errors of the static `save` leave its content alone. -/
def FailedSaveKeeps (fs : FileSystem) (io : IoOutcome) (path : Path) (clusterId : UInt64)
    (name : Bytes) (nodes : List NodeInfo) : Prop :=
  ∀ content fs' code, fs path = some content →
    saveConfig fs io path clusterId name nodes = (fs',.error (.error code)) →
    code = .invalidPeerAddress ∨ code = .localNodeNotFound → fs' path = some content

/-- All addresses are valid and the local node is among the nodes. -/
def Saveable (name : Bytes) (nodes : List NodeInfo) : Prop :=
  (∀ node ∈ nodes, validAddr node.host node.port = true) ∧ ∃ node ∈ nodes, node.name = name

variable (name acc) in
/-- With valid addresses the loop over `node_infos` ends, with a local node if there is one. -/
theorem foldlM_collect_of_valid (h : ∀ node ∈ nodes, validAddr node.host node.port = true) :
    ∃ acc', nodes.foldlM (collect name) acc = .ok acc' ∧
      (acc'.localNode = none ↔ acc.localNode = none ∧ ∀ node ∈ nodes, node.name ≠ name) := by
  induction nodes generalizing acc with
  | nil => exact ⟨acc,rfl,by simp⟩
  | cons n nodes ih =>
    obtain ⟨hvalid,hrest⟩ := List.forall_mem_cons.mp h
    obtain ⟨acc',hfold,hlocal⟩ :=
      ih ⟨acc.nodes ++ [n.entry],if n.name = name then some n else acc.localNode⟩ hrest
    refine ⟨acc',?_,hlocal.trans ?_⟩
    · rw [List.foldlM_cons, collect, if_pos hvalid]
      exact hfold
    · by_cases hname : n.name = name
      · simp [hname]
      · simp [hname]

/-- The loop stops at an invalid address. -/
theorem foldlM_collect_of_invalid (h : ¬∀ node ∈ nodes, validAddr node.host node.port = true) :
    nodes.foldlM (collect name) acc = .error (.error .invalidPeerAddress) := by
  induction nodes generalizing acc with
  | nil => exact absurd (by simp) h
  | cons n nodes ih =>
    rw [List.foldlM_cons, collect]
    by_cases hvalid : validAddr n.host n.port = true
    · rw [if_pos hvalid]
      exact ih fun hrest => h (List.forall_mem_cons.mpr ⟨hvalid,hrest⟩)
    · rw [if_neg hvalid]
      rfl

variable (fs path clusterId) in
/-- The file is emptied before the nodes are checked. -/
theorem saveConfig_of_not_saveable (hdirectories : io.directoriesMade = true)
    (hopened : io.opened = true) (h : ¬Saveable name nodes) :
    ∃ code, (code = .invalidPeerAddress ∨ code = .localNodeNotFound) ∧
      saveConfig fs io path clusterId name nodes =
        (Function.update fs path (some []),.error (.error code)) := by
  by_cases hvalid : ∀ node ∈ nodes, validAddr node.host node.port = true
  · obtain ⟨⟨entries,localNode⟩,hfold,hlocal⟩ :=
      foldlM_collect_of_valid name ⟨[],none⟩ hvalid
    obtain rfl : localNode = none := hlocal.mpr ⟨rfl,fun node hnode hname => h
      ⟨hvalid,node,hnode,hname⟩⟩
    exact ⟨.localNodeNotFound,.inr rfl,by simp [saveConfig, hdirectories, hopened, hfold]⟩
  · refine ⟨.invalidPeerAddress,.inl rfl,?_⟩
    simp [saveConfig, hdirectories, hopened, foldlM_collect_of_invalid hvalid]

/-- Nodes that can be saved give neither of the two errors. -/
theorem saveConfig_of_saveable {fs' : FileSystem} {code : ConfigError} (h : Saveable name nodes)
    (hsave : saveConfig fs io path clusterId name nodes = (fs',.error (.error code))) :
    code ≠ .invalidPeerAddress ∧ code ≠ .localNodeNotFound := by
  obtain ⟨hvalid,node,hnode,hname⟩ := h
  obtain ⟨⟨entries,localNode⟩,hfold,hlocal⟩ :=
    foldlM_collect_of_valid name ⟨[],none⟩ hvalid
  cases localNode with
  | none => exact absurd hname ((hlocal.mp rfl).2 node hnode)
  | some localNode =>
    unfold saveConfig at hsave
    rw [hfold] at hsave
    split_ifs at hsave with hdirectories hopened
    · simp at hsave
    · obtain rfl : ConfigError.raftConfigFileOpenFailed = code := by
        simpa using (Prod.mk.inj hsave).2
      exact ⟨nofun,nofun⟩
    · dsimp only at hsave
      cases hdump : dump (configJson clusterId name localNode entries) with
      | none => simp [hdump] at hsave
      | some payload =>
        simp only [hdump] at hsave
        unfold writeAll at hsave
        cases hwrite : io.failsAfter with
        | none => simp [hwrite] at hsave
        | some n =>
          obtain rfl : ConfigError.raftConfigFileWriteFailed = code := by
            simpa [hwrite] using (Prod.mk.inj hsave).2
          exact ⟨nofun,nofun⟩

theorem failedSaveKeeps_iff : FailedSaveKeeps fs io path clusterId name nodes ↔
    (io.directoriesMade = true → io.opened = true →
      Saveable name nodes ∨ ∀ content, fs path = some content → content = []) := by
  constructor
  · intro hkeeps hdirectories hopened
    refine or_iff_not_imp_left.mpr fun hnot content hfile => ?_
    obtain ⟨code,hcode,hsave⟩ :=
      saveConfig_of_not_saveable fs path clusterId hdirectories hopened hnot
    have hkept := hkeeps content _ code hfile hsave hcode
    rw [Function.update_self] at hkept
    exact (Option.some.inj hkept).symm
  · intro hcond content fs' code hfile hsave hcode
    cases hdirectories : io.directoriesMade with
    | false => simp [saveConfig, hdirectories] at hsave
    | true =>
      cases hopened : io.opened with
      | false =>
        obtain ⟨rfl,-⟩ : fs = fs' ∧ _ := by simpa [saveConfig, hdirectories, hopened] using hsave
        exact hfile
      | true =>
        by_cases hnodes : Saveable name nodes
        · have hother := saveConfig_of_saveable hnodes hsave
          exact absurd hcode (not_or.mpr hother)
        · obtain rfl := (hcond hdirectories hopened).resolve_left hnodes content hfile
          obtain ⟨code',-,hsave'⟩ :=
            saveConfig_of_not_saveable fs path clusterId hdirectories hopened hnodes
          obtain rfl := (Prod.mk.inj (hsave'.symm.trans hsave)).1
          exact Function.update_self ..

end Static

section Loaded
variable {cfg cfg' : LoadedConfig} {fs fs' : FileSystem} {io : IoOutcome} {code : ConfigError}

namespace LoadedConfig

variable (cfg fs io) in
/-- `save` returns an error code exactly if there is a text to write and an operation on the
temporary file fails. -/
theorem save_failed_iff : (∃ fs' code, cfg.save fs io = (fs',.error (.error code))) ↔
    (∃ text, dump cfg.json = some text) ∧ ¬io.Completes := by
  unfold save IoOutcome.Completes
  cases dump cfg.json with
  | none => simp
  | some text =>
    cases io.opened with
    | false => simp
    | true =>
      unfold writeAll
      cases io.failsAfter with
      | some n => simp
      | none => cases io.renamed <;> simp

/-- `editNodes` returns an error code exactly if `save` does after the change. -/
theorem editNodes_failed_iff {edit : Json → Attempt Json} (hedit : ∀ nodes, Codeless (edit nodes)) :
    editNodes edit cfg fs io = (cfg',fs',.error (.error code)) ↔
      ∃ json, editedJson edit cfg.json = .ok json ∧ cfg' = {cfg with json := json} ∧
        cfg'.save fs io = (fs',.error (.error code)) := by
  unfold editNodes editedJson
  cases hsubscript : (cfg.json.subscript nodesKey : Attempt (Json × Json)) with
  | error e =>
    have hcode := Json.codeless_subscript nodesKey cfg.json code
    rw [hsubscript] at hcode
    refine iff_of_false (fun h => hcode ?_) nofun
    exact congrArg _ (Except.error.inj (Prod.mk.inj (Prod.mk.inj h).2).2)
  | ok opened =>
    obtain ⟨json,nodes⟩ := opened
    cases hnodes : edit nodes with
    | error e =>
      have hcode := hedit nodes code
      rw [hnodes] at hcode
      refine iff_of_false (fun h => hcode ?_) ?_
      · simp only [hnodes] at h
        exact congrArg _ (Except.error.inj (Prod.mk.inj (Prod.mk.inj h).2).2)
      · simp [hnodes, bind, Except.bind]
    | ok nodes' =>
      simp only [hnodes, bind, Except.bind, pure, Except.pure, Except.ok.injEq, exists_eq_left',
        Prod.mk.injEq]
      constructor
      · rintro ⟨rfl,hsave⟩
        exact ⟨rfl,hsave⟩
      · rintro ⟨rfl,hsave⟩
        exact ⟨rfl,hsave⟩

end LoadedConfig

namespace MembershipCall
variable {call : MembershipCall}

def outcome : MembershipCall → IoOutcome
  | .addPeer _ io | .removePeer _ io | .removePeerById _ io => io

/-- The new peer has a valid address, or the member is there. -/
def Accepted (cfg : LoadedConfig) : MembershipCall → Prop
  | .addPeer node _ => validAddr node.host node.port = true
  | .removePeer node _ => node.hash ∈ cfg.peers
  | .removePeerById memberId _ => memberId ∈ cfg.peers

def changedPeers (peers : PeerMap) : MembershipCall → PeerMap
  | .addPeer node _ => peers.emplace node.hash node
  | .removePeer node _ => peers.erase node.hash
  | .removePeerById memberId _ => peers.erase memberId

def editOfNodes : MembershipCall → Json → Attempt Json
  | .addPeer node _ => fun nodes => nodes.pushBack node.entry
  | .removePeer node _ => Json.eraseFirst (LoadedConfig.hasMemberId node.hash)
  | .removePeerById memberId _ => Json.eraseFirst (LoadedConfig.hasMemberId memberId)

variable (fs) in
theorem result_of_accepted (h : call.Accepted cfg) : call.result cfg fs =
    LoadedConfig.editNodes call.editOfNodes {cfg with peers := call.changedPeers cfg.peers} fs
      call.outcome := by
  cases call with
  | addPeer node io =>
    have hvalid : validAddr node.host node.port = true := h
    simp only [result, LoadedConfig.addPeer, createPeer, if_pos hvalid]
    rfl
  | removePeer node io => exact if_pos h
  | removePeerById memberId io => exact if_pos h

variable (fs) in
theorem result_of_not_accepted (h : ¬call.Accepted cfg) :
    ∃ code, call.result cfg fs = (cfg,fs,.error (.error code)) := by
  cases call with
  | addPeer node io =>
    have hinvalid : ¬validAddr node.host node.port = true := h
    refine ⟨.invalidRpcServerAddress,?_⟩
    simp only [result, LoadedConfig.addPeer, createPeer, if_neg hinvalid]
  | removePeer node io => exact ⟨_,if_neg h⟩
  | removePeerById memberId io => exact ⟨_,if_neg h⟩

theorem codeless_editOfNodes (nodes : Json) : Codeless (call.editOfNodes nodes) := by
  have removed (memberId : UInt64) :
      Codeless (nodes.eraseFirst (LoadedConfig.hasMemberId memberId)) :=
    Json.codeless_eraseFirst
      (fun j => (Json.codeless_child memberIdKey j).bind fun _ => codeless_ok _) nodes
  cases call with
  | addPeer node io => exact Json.codeless_pushBack nodes node.entry
  | removePeer node io => exact removed node.hash
  | removePeerById memberId io => exact removed memberId

/-- Every change adds or removes a node. -/
theorem editOfNodes_length {nodes nodes' : Json} (h : call.editOfNodes nodes = .ok nodes') :
    nodes'.elements.length ≠ nodes.elements.length := by
  have removed {memberId : UInt64}
      (h : nodes.eraseFirst (LoadedConfig.hasMemberId memberId) = .ok nodes') :
      nodes'.elements.length ≠ nodes.elements.length := by
    obtain ⟨before,a,after,helements,helements',-⟩ := Json.elements_eraseFirst h
    rw [helements, helements']
    simp
  cases call with
  | addPeer node io =>
    rw [Json.elements_pushBack h]
    simp
  | removePeer node io => exact removed h
  | removePeerById memberId io => exact removed h

/-- A call that returns an error leaves the peers, the JSON value and the file alone. -/
def FailedKeeps (call : MembershipCall) (cfg : LoadedConfig) (fs : FileSystem) : Prop :=
  ∀ cfg' fs' code, call.result cfg fs = (cfg',fs',.error (.error code)) →
    cfg'.peers = cfg.peers ∧ cfg'.json = cfg.json ∧ fs' cfg.path = fs cfg.path

/-- The changed JSON value can be printed: the JSON library throws nowhere. -/
def Prints (call : MembershipCall) (cfg : LoadedConfig) : Prop :=
  ∃ json text, editedJson call.editOfNodes cfg.json = .ok json ∧ dump json = some text

theorem failedKeeps_iff : call.FailedKeeps cfg fs ↔
    (call.Accepted cfg → call.Prints cfg → call.outcome.Completes) := by
  have hcodeless := @codeless_editOfNodes _ call
  constructor
  · rintro hkeeps haccepted ⟨json,text,hjson,hdump⟩
    by_contra hfails
    obtain ⟨fs',code,hsave⟩ := (LoadedConfig.save_failed_iff
      {cfg with peers := call.changedPeers cfg.peers, json := json} fs call.outcome).mpr
        ⟨⟨text,hdump⟩,hfails⟩
    have hresult := (result_of_accepted fs haccepted).trans
      ((LoadedConfig.editNodes_failed_iff hcodeless).mpr ⟨json,hjson,rfl,hsave⟩)
    obtain ⟨-,hsame,-⟩ := hkeeps _ _ _ hresult
    exact editedJson_ne (fun _ _ => editOfNodes_length) hjson hsame
  · intro hcond cfg' fs' code hresult
    by_cases haccepted : call.Accepted cfg
    · rw [result_of_accepted fs haccepted] at hresult
      obtain ⟨json,hjson,rfl,hsave⟩ := (LoadedConfig.editNodes_failed_iff hcodeless).mp hresult
      obtain ⟨⟨text,hdump⟩,hfails⟩ := (LoadedConfig.save_failed_iff ..).mp ⟨fs',code,hsave⟩
      exact absurd (hcond haccepted ⟨json,text,hjson,hdump⟩) hfails
    · obtain ⟨code',hresult'⟩ := result_of_not_accepted fs haccepted
      obtain ⟨rfl,hrest⟩ := Prod.mk.inj (hresult'.symm.trans hresult)
      obtain ⟨rfl,-⟩ := Prod.mk.inj hrest
      exact ⟨rfl,rfl,rfl⟩

end MembershipCall

end Loaded

/-- A failed `save` keeps an existing file only if it is not opened, if the error comes from
elsewhere or if the file is empty; a failed change of the members keeps the configuration only if
the member is refused. -/
theorem failed_changes_keep_iff :
    (∀ fs io path clusterId name nodes, FailedSaveKeeps fs io path clusterId name nodes ↔
      (io.directoriesMade = true → io.opened = true →
        Saveable name nodes ∨ ∀ content, fs path = some content → content = [])) ∧
    ∀ (call : MembershipCall) cfg fs, call.FailedKeeps cfg fs ↔
      (call.Accepted cfg → call.Prints cfg → call.outcome.Completes) :=
  ⟨fun _ _ _ _ _ _ => failedSaveKeeps_iff,fun _ _ _ => MembershipCall.failedKeeps_iff⟩

end Saving

section Examples

attribute [local instance] textLibraries

/-- A `save` without the local node empties the file, and a peer whose `add_peer` fails at renaming
stays a peer. -/
theorem failed_changes_lost :
    (testLoaded.2 configPath ≠ some [] ∧ ∃ fs,
      saveConfig testLoaded.2 .success configPath 0 (ascii "node1") [loopback "node2" 8081] =
        (fs,.error (.error .localNodeNotFound)) ∧ fs configPath = some []) ∧
    ∃ cfg fs, testLoaded.1.addPeer testLoaded.2 ⟨true,true,none,false⟩ testPeer =
        (cfg,fs,.error (.error .tempRaftConfigFileRenameFailed)) ∧
      testPeer.hash ∉ testLoaded.1.peers ∧ testPeer.hash ∈ cfg.peers ∧
      cfg.json ≠ testLoaded.1.json ∧ fs configPath = testLoaded.2 configPath := by
  refine ⟨⟨?_,_,rfl,rfl⟩,_,_,rfl,?_,?_,?_,rfl⟩
  · decide +kernel
  · decide +kernel
  · decide +kernel
  · have hedited : editedJson (fun nodes => nodes.pushBack testPeer.entry) testLoaded.1.json =
        .ok _ := rfl
    refine editedJson_ne (fun nodes nodes' hpush => ?_) hedited
    rw [Json.elements_pushBack hpush]
    simp

end Examples

end Foskv.Raft
