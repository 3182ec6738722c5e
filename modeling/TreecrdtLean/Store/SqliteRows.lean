import TreecrdtLean.Store.SqliteExt

/-!
# What comes back from SQLite

SQLite returns a null pointer for a blob of zero bytes, and the readers take it for `NULL`. An
operation comes back as it was exactly if it binds no such blob, its Lamport time is behind that of
the scan, and a delete has the known state that an append asks for (`roundTrips_iff_kept`).
-/

namespace Treecrdt

namespace SqliteExt

variable {json : Json} {op : Operation}

/-! ## The columns -/

@[simp] theorem blob_none : blob none = none := rfl

theorem blob_some {b : Bytes} (h : b ≠ []) : blob (some b) = some b := by
  cases b with
  | nil => exact absurd rfl h
  | cons x b => rfl

theorem blob_eq_self_iff {v : Option Bytes} : blob v = v ↔ [] ∉ v.toList := by
  match v with
  | none => simp
  | some [] => simp [blob]
  | some (x :: b) => simp [blob]

@[simp] theorem blob_node (node : NodeId) :
    blob (some (nodeToBytes node)) = some (nodeToBytes node) :=
  blob_some fun h => absurd (congrArg List.length h) (by simp)

@[simp] theorem columnBlob16_node (node : NodeId) :
    columnBlob16 (some (nodeToBytes node)) = .ok (some node) := by
  simp [columnBlob16]
  rfl

@[simp] theorem columnBlob16_none : columnBlob16 none = .ok none := rfl

@[simp] theorem parseNodeId_node (node : NodeId) : parseNodeId (nodeToBytes node) = .ok node := by
  simp [parseNodeId]
  rfl

@[simp] theorem parseOptionalNodeId_node (node : NodeId) :
    parseOptionalNodeId (some (nodeToBytes node)) = .ok (some node) := by
  rw [parseOptionalNodeId, parseNodeId_node]
  rfl

@[simp] theorem parseOptionalNodeId_none : parseOptionalNodeId none = .ok none := rfl

/-! ## The round trip -/

/-- What comes back as it was. -/
structure Kept (op : Operation) : Prop where
  lamport : op.metadata.lamport ≠ 0
  replica : op.metadata.id.replica.bytes ≠ []
  blobs : [] ∉ op.kind.blobs
  knownState : ∀ node, op.kind = .delete node → op.metadata.knownState.isSome

/-- The row of the stored operation, in a rebuild and for another peer. -/
structure ReadsBack (json : Json) (stored op : Operation) : Prop where
  rebuilt : ∃ back, loadSince json [row json stored] 0 = .ok [back] ∧ back.Same op
  served : ∃ served back, readRow (row json stored) = .ok served ∧
    jsonAppendOpToOperation json served = .ok back ∧ back.Same op

/-- An operation that is appended is materialized, rebuilt and served as it was. -/
def RoundTrips (json : Json) (entry : Entry) (op : Operation) : Prop :=
  ∃ stored, entry.append json op = .ok stored ∧ stored.Same op ∧ ReadsBack json stored op

theorem row_congr {a b : Operation} (h : a.Same b) : row json a = row json b := by
  unfold row
  rw [h.toVec_eq, h.id, h.lamport, h.kind]

theorem row_holds (op : Operation) : (row json op).Holds op := by
  unfold row
  split <;> exact ⟨rfl, rfl, rfl⟩

theorem knownState_text (hjson : ∀ vv ∈ op.metadata.knownState, json.Reads vv) :
    [] ∉ (op.metadata.knownState.map json.toVec).toList := by
  cases h : op.metadata.knownState with
  | none => simp
  | some vv => simpa using (hjson vv h).text.symm

theorem filter_eq_self {v : Option Bytes} (h : [] ∉ v.toList) :
    (v.filter fun bytes => !bytes.isEmpty) = v := by
  match v with
  | none => rfl
  | some [] => simp at h
  | some (x :: b) => rfl

/-- The row is served as the JSON that it came from. -/
theorem readRow_row (hkept : Kept op) (hknown : op.KnowsIfDeletes)
    (hjson : ∀ vv ∈ op.metadata.knownState, json.Reads vv) :
    readRow (row json op) = .ok (buildAppendOpsPayload json op) := by
  have hblobs := hkept.blobs
  have hreplica := blob_some hkept.replica
  have htext := blob_eq_self_iff.mpr (knownState_text hjson)
  have hfilter := filter_eq_self (knownState_text hjson)
  obtain ⟨⟨id, lamport, ks⟩, kind⟩ := op
  unfold readRow row buildAppendOpsPayload
  cases kind with
  | insert parent node orderKey payload =>
    obtain rfl := hknown rfl
    simp only [OperationKind.blobs, List.mem_cons, not_or] at hblobs
    simp [hreplica, blob_some (Ne.symm hblobs.1), blob_eq_self_iff.mpr hblobs.2, orError, bind,
      Except.bind, pure, Except.pure]
  | move node newParent orderKey =>
    obtain rfl := hknown rfl
    have hkey : orderKey ≠ [] := fun h => hblobs (by simp [OperationKind.blobs, h])
    simp [hreplica, blob_some hkey, orError, bind, Except.bind, pure, Except.pure]
  | delete node | tombstone node =>
    simp only at htext hfilter
    simp [hreplica, htext, hfilter, orError, bind, Except.bind, pure, Except.pure]
  | payload node payload =>
    obtain rfl := hknown rfl
    simp [hreplica, blob_eq_self_iff.mpr hblobs, orError, bind, Except.bind, pure, Except.pure]

/-- The JSON of an operation is read as the operation. -/
theorem jsonAppendOpToOperation_payload (hknown : op.KnowsIfDeletes)
    (hdelete : ∀ node, op.kind = .delete node → op.metadata.knownState.isSome)
    (hjson : ∀ vv ∈ op.metadata.knownState, json.Reads vv) :
    ∃ back, jsonAppendOpToOperation json (buildAppendOpsPayload json op) = .ok back ∧
      back.Same op := by
  obtain ⟨ks', hks, hsame⟩ := readKnownState_toVec (fun _ => SQLITE_ERROR) hjson
  have hparse : readKnownState (deserializeVersionVector json)
    (op.metadata.knownState.map json.toVec) = .ok ks' := hks
  have hfilter := filter_eq_self (knownState_text hjson)
  refine ⟨⟨⟨op.metadata.id, op.metadata.lamport, ks'⟩, op.kind⟩, ?_, ⟨rfl, rfl, hsame, rfl⟩⟩
  clear hks hjson
  obtain ⟨⟨id, lamport, ks⟩, kind⟩ := op
  unfold jsonAppendOpToOperation jsonKind buildAppendOpsPayload
  simp only at hfilter hparse hsame
  cases kind with
  | insert | move | payload =>
    obtain rfl := hknown rfl
    obtain rfl : none = ks' := Except.ok.inj hparse
    simp [orError, readKnownState, bind, Except.bind, pure, Except.pure]
  | delete node =>
    have hsome : ks.isSome := hdelete node rfl
    obtain ⟨vv, rfl⟩ : ∃ vv, ks' = some vv := by
      cases hsame with
      | some => exact ⟨_, rfl⟩
      | none => cases hsome
    simp [hfilter, hparse, orError, bind, Except.bind, pure, Except.pure]
  | tombstone node =>
    simp [hfilter, hparse, bind, Except.bind, pure, Except.pure]

theorem text_getD (hsome : op.metadata.knownState.isSome)
    (hjson : ∀ vv ∈ op.metadata.knownState, json.Reads vv) :
    (op.metadata.knownState.map json.toVec).getD [] ≠ [] := by
  obtain ⟨vv, hvv⟩ := Option.isSome_iff_exists.mp hsome
  rw [hvv]
  exact (hjson vv hvv).text

/-- Both entries make the JSON of the operation of it. -/
theorem append_eq (hkept : Kept op) (hfits : op.FitsI64) (hknown : op.KnowsIfDeletes)
    (hjson : ∀ vv ∈ op.metadata.knownState, json.Reads vv) (entry : Entry) :
    entry.append json op = jsonAppendOpToOperation json (buildAppendOpsPayload json op) := by
  have hblobs := hkept.blobs
  have hreplica := blob_some hkept.replica
  have hcounter : ¬ op.metadata.id.counter.toInt64 < 0 := by
    rw [Int64.lt_iff_toInt_lt, toInt64_toInt_of_lt hfits.counter]
    exact not_lt.mpr (Int.natCast_nonneg _)
  have hlamport := maxZero_toInt64 hfits.lamport
  have hfilter := filter_eq_self (knownState_text hjson)
  have htext := blob_eq_self_iff.mpr (knownState_text hjson)
  have hdelete := fun node h => text_getD (hkept.knownState node h) hjson
  obtain ⟨⟨id, lamport, ks⟩, kind⟩ := op
  simp only at hlamport hcounter hreplica hfilter htext
  cases entry with
  | appendOps =>
    unfold Entry.append treecrdtAppendOps buildAppendOpsPayload
    cases kind with
    | delete node =>
      have hsome : (ks.map json.toVec).getD [] ≠ [] := hdelete node rfl
      simp [hfilter, hsome, bind, Except.bind, pure, Except.pure]
    | insert | move | tombstone | payload => simp [bind, Except.bind, pure, Except.pure]
  | appendOp =>
    unfold Entry.append treecrdtAppendOp buildAppendOp buildAppendOpsPayload
    cases kind with
    | insert parent node orderKey payload =>
      obtain rfl := hknown rfl
      simp only [OperationKind.blobs, List.mem_cons, not_or] at hblobs
      simp [hreplica, hcounter, hlamport, blob_some (Ne.symm hblobs.1),
        blob_eq_self_iff.mpr hblobs.2, bind, Except.bind, pure, Except.pure]
    | move node newParent orderKey =>
      obtain rfl := hknown rfl
      have hkey : orderKey ≠ [] := fun h => hblobs (by simp [OperationKind.blobs, h])
      simp [hreplica, hcounter, hlamport, blob_some hkey, bind, Except.bind, pure, Except.pure]
    | delete node =>
      have hsome : (ks.map json.toVec).getD [] ≠ [] := hdelete node rfl
      simp [hreplica, hcounter, hlamport, hfilter, htext, hsome, bind, Except.bind, pure,
        Except.pure]
    | tombstone node =>
      simp [hreplica, hcounter, hlamport, hfilter, htext, bind, Except.bind, pure, Except.pure]
    | payload node payload =>
      obtain rfl := hknown rfl
      simp [hreplica, hcounter, hlamport, blob_eq_self_iff.mpr hblobs, bind, Except.bind, pure,
        Except.pure]

/-! ## Rebuilding -/

/-- The content of a payload that was written, as it is read. -/
def readKind : OperationKind → OperationKind
  | .insert parent node orderKey payload => .insert parent node orderKey (blob payload)
  | .payload node payload => .payload node (blob payload)
  | kind => kind

theorem Kept.readKind_eq (h : Kept op) : readKind op.kind = op.kind := by
  have hblobs := h.blobs
  cases hop : op.kind with
  | insert parent node key payload =>
    rw [hop, OperationKind.blobs, List.mem_cons, not_or] at hblobs
    rw [readKind, blob_eq_self_iff.mpr hblobs.2]
  | move | delete | tombstone => rfl
  | payload node payload =>
    rw [hop] at hblobs
    rw [readKind, blob_eq_self_iff.mpr hblobs]

/-- A row is skipped or read with the payload that is left of it. -/
theorem readOp_row {ks : Option VersionVector}
    (hks : readKnownState json.vvFromBytes (row json op).knownState = .ok ks) :
    readOp json (row json op) = .ok ((blob (some op.metadata.id.replica.bytes)).map fun replica =>
      ⟨⟨⟨⟨replica⟩, maxZero op.metadata.id.counter.toInt64⟩, maxZero op.metadata.lamport.toInt64, ks⟩,
        readKind op.kind⟩) := by
  obtain ⟨⟨⟨⟨replica⟩, counter⟩, lamport, ks'⟩, kind⟩ := op
  cases hreplica : blob (some replica) with
  | none =>
    unfold readOp row
    cases kind <;> simp [hreplica] <;> rfl
  | some r =>
    cases kind with
    | insert parent node orderKey payload =>
      have hkey : (blob (some orderKey)).getD [] = orderKey := by cases orderKey <;> rfl
      simp only [row] at hks
      simp [readOp, row, rowKind, readKind, hkey, hreplica, hks, orError, bind, Except.bind, pure, Except.pure]
    | move node newParent orderKey =>
      have hkey : (blob (some orderKey)).getD [] = orderKey := by cases orderKey <;> rfl
      simp only [row] at hks
      simp [readOp, row, rowKind, readKind, hkey, hreplica, hks, orError, bind, Except.bind, pure, Except.pure]
    | delete | tombstone | payload =>
      simp only [row] at hks
      simp [readOp, row, rowKind, readKind, hreplica, hks, orError, bind, Except.bind, pure, Except.pure]

/-- Whatever has no known state in its row has none. -/
theorem row_knownState (hknown : op.KnowsIfDeletes) :
    (row json op).knownState = op.metadata.knownState.map json.toVec := by
  unfold row
  cases hkind : op.kind with
  | delete | tombstone => rfl
  | insert | move | payload =>
    rw [hknown (by rw [hkind]; rfl)]
    rfl

/-- What a rebuild makes of the row. -/
theorem rebuilt_iff (hfits : op.FitsI64) (hknown : op.KnowsIfDeletes)
    (hjson : ∀ vv ∈ op.metadata.knownState, json.Reads vv) :
    (∃ back, loadSince json [row json op] 0 = .ok [back] ∧ back.Same op) ↔
      op.metadata.lamport ≠ 0 ∧ op.metadata.id.replica.bytes ≠ [] ∧ readKind op.kind = op.kind := by
  obtain ⟨ks, hks, hsame⟩ := readKnownState_toVec .storage hjson
  have hread := readOp_row ((row_knownState hknown).symm ▸ hks)
  rw [maxZero_toInt64 hfits.lamport, maxZero_toInt64 hfits.counter] at hread
  have hscan : loadSince json [row json op] 0 =
      readRows (readOp json) (if op.metadata.lamport ≠ 0 then [row json op] else []) := by
    have hpos : (0 : UInt64).toInt64 < (row json op).lamport ↔ op.metadata.lamport ≠ 0 := by
      rw [(row_holds op).lamport]
      exact toInt64_pos_iff.trans (and_iff_left hfits.lamport)
    rw [loadSince, scanRows]
    by_cases h : op.metadata.lamport ≠ 0
    · rw [if_pos h, List.filter_cons_of_pos (by simpa using hpos.mpr h), List.filter_nil,
        List.mergeSort_singleton]
    · rw [if_neg h, List.filter_cons_of_neg (by simpa using fun hp => h (hpos.mp hp)),
        List.filter_nil, List.mergeSort_nil]
  rw [hscan]
  by_cases hlamport : op.metadata.lamport ≠ 0
  swap
  · rw [if_neg hlamport]
    refine iff_of_false ?_ fun h => hlamport h.1
    rintro ⟨back, h, -⟩
    cases h
  rw [if_pos hlamport, readRows, hread]
  by_cases hreplica : op.metadata.id.replica.bytes = []
  · rw [hreplica]
    refine iff_of_false ?_ fun h => h.2.1 rfl
    rintro ⟨back, h, -⟩
    cases h
  rw [blob_some hreplica]
  constructor
  · rintro ⟨back, h, hback⟩
    cases h
    exact ⟨hlamport, hreplica, hback.kind⟩
  · rintro ⟨-, -, hkind⟩
    exact ⟨_, rfl, ⟨rfl, rfl, hsame, hkind⟩⟩

/-- A rebuild visits the operations that were appended, in their order. -/
theorem loadSince_log {ops : List Operation} (hkept : ∀ op ∈ ops, Kept op)
    (hfits : ∀ op ∈ ops, op.FitsI64) (hknown : ∀ op ∈ ops, op.KnowsIfDeletes)
    (hjson : ∀ op ∈ ops, ∀ vv ∈ op.metadata.knownState, json.Reads vv) :
    ∃ backs, loadSince json (ops.map (row json)) 0 = .ok backs ∧
      List.Forall₂ Operation.Same backs (sortOps ops) := by
  refine scanRows_map (fun op _ => row_holds op) hfits (fun op hop => (hkept op hop).lamport)
    fun op hop => ?_
  obtain ⟨ks, hks, hsame⟩ := readKnownState_toVec .storage (hjson op hop)
  have hread := readOp_row ((row_knownState (hknown op hop)).symm ▸ hks)
  rw [blob_some (hkept op hop).replica, maxZero_toInt64 (hfits op hop).lamport,
    maxZero_toInt64 (hfits op hop).counter] at hread
  exact ⟨_, hread, rfl, rfl, hsame, (hkept op hop).readKind_eq⟩

/-! ## Serving -/

theorem readRow_fields {r : OpRow} {served : JsonOp} (h : readRow r = .ok served) :
    served.kind = r.kind ∧ served.orderKey = blob r.orderKey := by
  unfold readRow at h
  cases hreplica : blob (some r.replica) with
  | none => rw [hreplica] at h; cases h
  | some replica =>
    rw [hreplica] at h
    obtain ⟨parent, -, h⟩ := except_bind_ok h
    obtain ⟨node, -, h⟩ := except_bind_ok h
    obtain ⟨node', -, h⟩ := except_bind_ok h
    obtain ⟨newParent, -, h⟩ := except_bind_ok h
    cases h
    exact ⟨rfl, rfl⟩

/-- What the JSON of an operation that is read has. -/
theorem fields_of_jsonAppendOpToOperation {served : JsonOp} {back : Operation}
    (h : jsonAppendOpToOperation json served = .ok back) :
    (served.kind = "insert" ∨ served.kind = "move" → served.orderKey.isSome) ∧
      (served.kind = "delete" → back.metadata.knownState.isSome) := by
  unfold jsonAppendOpToOperation at h
  obtain ⟨node, -, h⟩ := except_bind_ok h
  obtain ⟨parent, -, h⟩ := except_bind_ok h
  obtain ⟨newParent, -, h⟩ := except_bind_ok h
  obtain ⟨ks, -, h⟩ := except_bind_ok h
  obtain ⟨kind, hkind, h⟩ := except_bind_ok h
  cases h
  have hsome : ∀ {α : Type} {v : Option α} {a : α}, orError v = .ok a → v.isSome := by
    intro α v a hv
    cases v with
    | none => cases hv
    | some _ => rfl
  unfold jsonKind at hkind
  refine ⟨?_, fun hdelete => ?_⟩
  · rintro (hinsert | hmove)
    · rw [hinsert] at hkind
      obtain ⟨_, -, hkind⟩ := except_bind_ok hkind
      obtain ⟨_, hkey, -⟩ := except_bind_ok hkind
      exact hsome hkey
    · rw [hmove] at hkind
      obtain ⟨_, -, hkind⟩ := except_bind_ok hkind
      obtain ⟨_, hkey, -⟩ := except_bind_ok hkind
      exact hsome hkey
  · rw [hdelete] at hkind
    obtain ⟨vv, -, hkind⟩ := except_bind_ok hkind
    cases hkind
    rfl

/-- What reads back has bound no blob of zero bytes. -/
theorem ReadsBack.kept (hfits : op.FitsI64) (hknown : op.KnowsIfDeletes)
    (hjson : ∀ vv ∈ op.metadata.knownState, json.Reads vv) (h : ReadsBack json op op) : Kept op := by
  obtain ⟨hlamport, hreplica, hkind⟩ := (rebuilt_iff hfits hknown hjson).mp h.rebuilt
  obtain ⟨served, back, hread, hback, hsame⟩ := h.served
  obtain ⟨hname, horderKey⟩ := readRow_fields hread
  obtain ⟨hkey, hks⟩ := fields_of_jsonAppendOpToOperation hback
  have hnonempty : ∀ {key : Bytes}, (blob (some key)).isSome → key ≠ [] := by
    rintro key hsome rfl
    cases hsome
  refine ⟨hlamport, hreplica, ?_, fun node hdelete => ?_⟩
  · cases hop : op.kind with
    | insert parent node key payload =>
      rw [row, hop] at hname horderKey
      rw [hop, readKind, OperationKind.insert.injEq] at hkind
      rw [horderKey] at hkey
      have hpayload := blob_eq_self_iff.mp hkind.2.2.2
      rw [OperationKind.blobs, List.mem_cons, not_or]
      exact ⟨(hnonempty (hkey (.inl hname))).symm, hpayload⟩
    | move node newParent key =>
      rw [row, hop] at hname horderKey
      rw [horderKey] at hkey
      rw [OperationKind.blobs, List.mem_singleton]
      exact (hnonempty (hkey (.inr hname))).symm
    | delete | tombstone => exact List.not_mem_nil
    | payload node payload =>
      rw [hop, readKind, OperationKind.payload.injEq] at hkind
      exact blob_eq_self_iff.mp hkind.2
  · rw [row, hdelete] at hname
    have hsome := hks hname
    have hrel := hsame.knownState
    cases hold : op.metadata.knownState with
    | some vv => rfl
    | none =>
      rw [hold] at hrel
      cases hnew : back.metadata.knownState with
      | none => rw [hnew] at hsome; cases hsome
      | some vv => rw [hnew] at hrel; cases hrel

/-- **When an operation comes back from SQLite.** An operation that is appended is rebuilt and served
as it was exactly if it binds no blob of zero bytes, its Lamport time is not 0, and its known state
is there if it is a delete. -/
theorem roundTrips_iff_kept (json : Json) (entry : Entry) (op : Operation) (hfits : op.FitsI64)
    (hknown : op.KnowsIfDeletes) (hjson : ∀ vv ∈ op.metadata.knownState, json.Reads vv) :
    RoundTrips json entry op ↔ Kept op := by
  constructor
  · rintro ⟨stored, -, hsame, hback⟩
    refine ReadsBack.kept hfits hknown hjson ⟨?_, ?_⟩
    · rw [← row_congr hsame]
      exact hback.rebuilt
    · rw [← row_congr hsame]
      exact hback.served
  · intro hkept
    obtain ⟨stored, hstored, hsame⟩ := jsonAppendOpToOperation_payload hknown hkept.knownState hjson
    refine ⟨stored, (append_eq hkept hfits hknown hjson entry).trans hstored, hsame, ?_, ?_⟩
    · rw [row_congr hsame]
      exact (rebuilt_iff hfits hknown hjson).mpr
        ⟨hkept.lamport, hkept.replica, hkept.readKind_eq⟩
    · rw [row_congr hsame]
      exact ⟨_, stored, readRow_row hkept hknown hjson, hstored, hsame⟩

def unseenDelete : Operation := .delete ⟨[1]⟩ 1 1 ⟨7⟩ (some .new)

theorem roundTrips_iff_kept_delete :
    Kept unseenDelete ∧ ∀ entry, RoundTrips .ofNew entry unseenDelete := by
  have hkept : Kept unseenDelete := ⟨by decide, by decide, by decide, fun _ _ => rfl⟩
  exact ⟨hkept, fun entry => (roundTrips_iff_kept .ofNew entry unseenDelete
    ⟨by decide, by decide⟩ nofun fun vv hvv => by
      rw [← Option.some.inj hvv]
      exact Json.ofNew_reads).mpr hkept⟩

/-- A payload of zero bytes comes back as a cleared one. -/
theorem empty_payload_not_roundTrips : ¬ ∀ (entry : Entry) (op : Operation), op.FitsI64 →
    op.KnowsIfDeletes → (∀ vv ∈ op.metadata.knownState, Json.ofNew.Reads vv) →
      RoundTrips .ofNew entry op := by
  intro h
  have hfits : (Operation.setPayload ⟨[1]⟩ 1 1 ⟨7⟩ []).FitsI64 := ⟨by decide, by decide⟩
  obtain ⟨stored, -, hsame, hback⟩ := h .appendOps (.setPayload ⟨[1]⟩ 1 1 ⟨7⟩ []) hfits
    (fun _ => rfl) nofun
  have hrebuilt := hback.rebuilt
  rw [row_congr hsame] at hrebuilt
  have hkind := ((rebuilt_iff hfits (fun _ => rfl) nofun).mp hrebuilt).2.2
  cases hkind

end SqliteExt

end Treecrdt
