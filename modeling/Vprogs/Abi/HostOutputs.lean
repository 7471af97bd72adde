import Mathlib.Data.List.Forall2
import Vprogs.Abi.InputRoundTrip
import Vprogs.Abi.JournalRoundTrip

/-!
What a run leaves behind reaches both of its readers. The journal names every resource the
handler wrote and the host is sent the data of exactly those; a resource is kept as a slice
of the input until it outgrows it, and only an access that may change it marks it written.
-/
namespace Vprogs.Abi

/-! ### Resources as they are kept -/

/-- A resource over its part of the input buffer, or over a buffer of its own once it has
grown. -/
structure BackedResource where
  accessMetadata : AccessMetadata
  backing : Bytes
  promoted : Option Bytes
  index : UInt32
  isNew : Bool
  dirty : Bool

/-- What a handler does with a resource it may change. -/
inductive ResourceAccess where
  /-- Writes over the start of the data. -/
  | dataMut (written : Bytes)
  | resize (newLen : Nat)

def overwrite (data written : Bytes) : Bytes := written.take data.length ++ data.drop written.length

namespace BackedResource

def data (r : BackedResource) : Bytes := r.promoted.getD r.backing

def dataMut (r : BackedResource) (written : Bytes) : BackedResource :=
  match r.promoted with
  | some v => { r with promoted := some (overwrite v written), dirty := true }
  | none => { r with backing := overwrite r.backing written, dirty := true }

def resize (r : BackedResource) (newLen : Nat) : BackedResource :=
  let currentLen := r.data.length
  if newLen = currentLen then r
  else if newLen < currentLen then
    match r.promoted with
    | some v => { r with promoted := some (v.take newLen), dirty := true }
    | none => { r with backing := r.backing.take newLen, dirty := true }
  else
    match r.promoted with
    | some v => { r with promoted := some (v ++ List.replicate (newLen - v.length) 0), dirty := true }
    | none =>
      let buf := r.backing
      { r with promoted := some (buf ++ List.replicate (newLen - buf.length) 0), dirty := true }

def access (r : BackedResource) : ResourceAccess → BackedResource
  | .dataMut written => r.dataMut written
  | .resize newLen => r.resize newLen

/-- The resource without where its data is kept. -/
def view (r : BackedResource) : Resource := ⟨r.accessMetadata, r.data, r.index, r.isNew, r.dirty⟩

/-- As decoded: the data is a slice of the input. -/
def ofResource (r : Resource) : BackedResource := ⟨r.accessMetadata, r.data, none, r.index, r.isNew, r.dirty⟩

end BackedResource

namespace Resource

def access (r : Resource) : ResourceAccess → Resource
  | .dataMut written => r.setData (overwrite r.data written)
  | .resize newLen => r.resize newLen

/-- An access that leaves a resource clean changed nothing. -/
theorem eq_of_access_clean {r : Resource} {a : ResourceAccess} (h : (r.access a).dirty = false) :
    r.access a = r := by
  cases a with
  | dataMut written => cases h
  | resize newLen =>
    unfold access resize at h ⊢
    dsimp only at h ⊢
    split at h
    · next heq => rw [if_pos heq]
    · split at h <;> cases h

theorem eq_of_accesses_clean {r : Resource} {accesses : List ResourceAccess}
    (h : (accesses.foldl access r).dirty = false) : accesses.foldl access r = r := by
  induction accesses generalizing r with
  | nil => rfl
  | cons a accesses ih =>
    have hrest := ih h
    rw [List.foldl_cons, hrest] at h
    rw [List.foldl_cons, hrest, eq_of_access_clean h]

end Resource

namespace BackedResource

theorem view_ofResource (r : Resource) : (ofResource r).view = r := rfl

theorem view_dataMut (r : BackedResource) (written : Bytes) :
    (r.dataMut written).view = r.view.setData (overwrite r.data written) := by
  obtain ⟨am, backing, promoted, index, isNew, dirty⟩ := r
  cases promoted <;> rfl

theorem view_resize (r : BackedResource) (newLen : Nat) : (r.resize newLen).view = r.view.resize newLen := by
  unfold resize Resource.resize
  dsimp only
  have hdata : r.view.data = r.data := rfl
  rw [hdata]
  by_cases hsame : newLen = r.data.length
  · rw [if_pos hsame, if_pos hsame]
  · obtain ⟨am, backing, promoted, index, isNew, dirty⟩ := r
    rw [if_neg hsame, if_neg hsame, apply_ite view]
    cases promoted <;> rfl

/-- Where the data is kept does not show in what an access does. -/
theorem view_access (r : BackedResource) (a : ResourceAccess) : (r.access a).view = r.view.access a := by
  cases a with
  | dataMut written => exact view_dataMut r written
  | resize newLen => exact view_resize r newLen

theorem view_accesses (r : BackedResource) (accesses : List ResourceAccess) :
    (accesses.foldl access r).view = accesses.foldl Resource.access r.view := by
  induction accesses generalizing r with
  | nil => rfl
  | cons a accesses ih => rw [List.foldl_cons, List.foldl_cons, ih, view_access]

end BackedResource

/-- The resources after a handler that was given the resources before. -/
def Handled : List Resource → List Resource → Prop :=
  List.Forall₂ fun before after => ∃ accesses : List ResourceAccess,
    after = (accesses.foldl BackedResource.access (BackedResource.ofResource before)).view

/-- What the host ends up with: the data it is sent, and what it had where it is sent none. -/
def applyOps (ops : List (Option Bytes)) (before : List Resource) : List Bytes :=
  List.zipWith (fun op r => op.getD r.data) ops before

/-- What the host is told of a resource. -/
def Outputs.ofResource (r : Resource) : Option Bytes := if r.dirty then some r.data else none

theorem applyOps_of_handled {before after : List Resource} (h : Handled before after) :
    applyOps (after.map Outputs.ofResource) before = after.map Resource.data := by
  induction h with
  | nil => rfl
  | @cons b a before after hrun _ ih =>
    have ⟨accesses, ha⟩ := hrun
    rw [BackedResource.view_accesses, BackedResource.view_ofResource] at ha
    have hdata : (Outputs.ofResource a).getD b.data = a.data := by
      unfold Outputs.ofResource
      split
      · rfl
      · next hclean =>
        rw [Bool.not_eq_true] at hclean
        rw [ha] at hclean ⊢
        rw [Resource.eq_of_accesses_clean hclean]
        rfl
    rw [applyOps, List.map_cons, List.zipWith_cons_cons, List.map_cons, hdata]
    exact congrArg _ ih

/-! ### Both streams -/

theorem OutputResourceCommitment.decode_toBytes (c : OutputResourceCommitment) (rest : Bytes) :
    decode.run (c.toBytes ++ rest) = .ok (c, rest) := by
  cases c with
  | changed hash =>
    rw [decode, Reader.run_bind_eq_ok]
    refine ⟨CHANGED, hash.val ++ rest, Reader.run_byte.mpr rfl, ?_⟩
    rw [if_pos rfl, Reader.run_bind_eq_ok]
    exact ⟨hash, rest, Reader.run_array.mpr rfl, rfl⟩
  | unchanged =>
    rw [decode, Reader.run_bind_eq_ok]
    refine ⟨UNCHANGED, rest, Reader.run_byte.mpr rfl, ?_⟩
    rw [if_neg (by decide), if_pos rfl]
    rfl

theorem OutputResourceCommitment.toBytes_ne_nil (c : OutputResourceCommitment) : c.toBytes ≠ [] := by
  cases c <;> nofun

theorem OutputResourceCommitment.items_encode (hash : DataHash) (resources : List Resource) :
    decode.items (resources.flatMap (encode hash)) = resources.map fun r => .ok (ofResource hash r) := by
  have hmap : resources.flatMap (encode hash) = (resources.map (ofResource hash)).flatMap toBytes := by
    rw [List.flatMap_map]
    rfl
  rw [hmap, Reader.items_flatMap toBytes_ne_nil fun c _ rest => decode_toBytes c rest, List.map_map]
  rfl

theorem Outputs.run_decodeOp {r : Resource} (h : r.data.length < 2 ^ 32) (rest : Bytes) :
    decodeOp.run (encodeOp r ++ rest) = .ok (ofResource r, rest) := by
  unfold encodeOp ofResource
  rw [decodeOp, Reader.run_bind_eq_ok]
  split
  · refine ⟨true, writeBlob r.data ++ rest, Reader.run_bool.mpr ⟨1, rfl, rfl⟩, ?_⟩
    rw [if_pos rfl, Reader.run_bind_eq_ok]
    exact ⟨r.data, rest, Reader.run_blob.mpr ⟨rfl, h⟩, rfl⟩
  · exact ⟨false, rest, Reader.run_bool.mpr ⟨0, rfl, rfl⟩, rfl⟩

theorem Outputs.run_decodeOps {resources : List Resource} (h : ∀ r ∈ resources, r.data.length < 2 ^ 32)
    (rest : Bytes) :
    (decodeOps resources.length).run (resources.flatMap encodeOp ++ rest) =
      .ok (resources.map ofResource, rest) := by
  induction resources with
  | nil => rfl
  | cons r resources ih =>
    have ⟨hr, hrest⟩ := List.forall_mem_cons.mp h
    rw [List.length_cons, decodeOps, List.flatMap_cons, List.append_assoc, Reader.run_bind_eq_ok]
    refine ⟨ofResource r, _, run_decodeOp hr _, ?_⟩
    rw [Reader.run_bind_eq_ok]
    exact ⟨resources.map ofResource, rest, ih hrest, rfl⟩

/-- The guest's addresses have 32 bits, and so have the lengths of what it holds. -/
def GuestSized : Except Error Effects → Prop
  | .ok effects => effects.exits.buf.length < 2 ^ 32 ∧ ∀ r ∈ effects.resources, r.data.length < 2 ^ 32
  | .error e => e.Encodable

theorem GuestSized.fits {result : Except Error Effects} (h : GuestSized result) : ResultFits result := by
  cases result with
  | ok effects => exact h.1
  | error e => exact h

theorem Outputs.decode_encode_ok {effects : Effects} (h : GuestSized (.ok effects)) :
    decode (encode (.ok effects)) effects.resources.length = .ok ⟨effects.resources.map ofResource⟩ := by
  have hread : (read effects.resources.length).run (encode (.ok effects)) =
      .ok (⟨effects.resources.map ofResource⟩, []) := by
    rw [read, Reader.run_bind_eq_ok]
    refine ⟨OK, effects.resources.flatMap encodeOp, Reader.run_byte.mpr rfl, ?_⟩
    rw [if_pos rfl, Reader.run_bind_eq_ok]
    have hops := run_decodeOps h.2 []
    rw [List.append_nil] at hops
    exact ⟨_, [], hops, rfl⟩
  rw [decode, hread]
  rfl

theorem Outputs.decode_encode_error {e : Error} (h : e.Encodable) (count : Nat) :
    decode (encode (.error e)) count = .error e := by
  have hdec := Error.decodeError_encode h []
  rw [List.append_nil] at hdec
  have hread : (read count).run (encode (.error e)) = .error e := by
    have hbyte : (Reader.byte "discriminant" : Reader Error UInt8).run (encode (.error e)) = .ok (ERR, e.encode) :=
      Reader.run_byte.mpr rfl
    rw [read, Reader.run_bind_of_ok hbyte, if_neg (by decide), if_pos rfl, Reader.run_bind_of_ok hdec]
    rfl
  rw [decode, hread]
  rfl

def emitAll (exits : List Exit) : Result ExitSink := exits.foldlM (fun sink e => sink.emit e.dest e.amount) {}

theorem buf_of_emitAll {exits : List Exit} {sink : ExitSink} (h : emitAll exits = .ok sink) :
    sink.buf = exits.flatMap Exit.encode := by
  have hrun : ∀ (exits : List Exit) (start : ExitSink),
      exits.foldlM (fun sink e => sink.emit e.dest e.amount) start =
        (.ok ⟨start.buf ++ exits.flatMap Exit.encode⟩ : Result ExitSink) := by
    intro exits
    induction exits with
    | nil => intro start; simp [pure, Except.pure]
    | cons e exits ih =>
      intro start
      rw [List.foldlM_cons]
      show exits.foldlM _ _ = _
      rw [ih, List.flatMap_cons, List.append_assoc]
  rw [emitAll, hrun] at h
  cases h
  rfl

/-- The journal of a run and what is streamed to the host, read back. The journal has the
inputs with the hashes of their data, and the error or the exits, the deposit and a hash for
each resource that was written. The host is sent the same error, or the data of the same
resources, and with what it had before it has the data the handler left. -/
theorem journal_and_outputs_roundTrip (hash : DataHash) {inputsBuf left : Bytes} {inputs : Inputs}
    {result : Except Error Effects} (hinputs : Inputs.decode.run inputsBuf = .ok (inputs, left))
    (hsized : GuestSized result) :
    ∃ output, JournalEntries.decode (InputCommitment.encode hash inputs ++ OutputCommitment.encode hash result) =
        .ok ⟨⟨inputs.version, inputs.txId, inputs.mergeIdx, inputs.executionInput.map fun exec =>
          ⟨exec.contextHash, exec.resources.map fun r => ⟨r.index, r.id, dataHash hash r.data⟩⟩⟩, output⟩ ∧
      match result with
      | .error e => output = .error e ∧ ∀ count, Outputs.decode (Outputs.encode result) count = .error e
      | .ok effects =>
        ∃ exits resources, output = .success exits effects.depositSpkHash resources ∧
          (∀ emitted, emitAll emitted = .ok effects.exits → Exits.iter exits = emitted.map .ok) ∧
          (OutputResourceCommitment.decode.items resources = effects.resources.map fun r =>
            .ok (if r.dirty then .changed (dataHash hash r.data) else .unchanged)) ∧
          ∃ outputs, Outputs.decode (Outputs.encode result) effects.resources.length = .ok outputs ∧
            (outputs.storageOps = effects.resources.map fun r => if r.dirty then some r.data else none) ∧
            ∀ before, Handled before effects.resources →
              applyOps outputs.storageOps before = effects.resources.map Resource.data := by
  have hdecoded := Inputs.decode_spec hinputs
  have hjournal : JournalEntries.decode (journalBytes hash inputs result) = _ :=
    JournalEntries.decode_journalBytes ⟨hdecoded.present, hdecoded.count⟩ hsized.fits
  refine ⟨OutputCommitment.ofResult hash result, hjournal, ?_⟩
  cases result with
  | error e => exact ⟨rfl, Outputs.decode_encode_error hsized⟩
  | ok effects =>
    refine ⟨_, _, rfl, fun emitted hemitted => ?_, OutputResourceCommitment.items_encode hash _,
      _, Outputs.decode_encode_ok hsized, rfl, fun before hhandled => applyOps_of_handled hhandled⟩
    rw [buf_of_emitAll hemitted, exits_iter_flatMap]

namespace Sample

def resourceId (b : UInt8) : ResourceId := Arr.fill b

def accesses : List AccessMetadata := [⟨resourceId 1, .write⟩, ⟨resourceId 2, .write⟩]

def payload : Bytes := encodeMany accesses AccessMetadata.encode

/-- A transaction over a resource of three bytes and one of two. -/
def inputsBuf : Bytes :=
  leBytes 2 1 ++ zeroHash.val ++ leBytes 4 7 ++ zeroHash.val ++ Transaction.encode payload [] ++
    Resource.encode 0 [1, 2, 3] ++ Resource.encode 1 [4, 5]

def before : List Resource :=
  [⟨⟨resourceId 1, .write⟩, [1, 2, 3], 0, false, false⟩, ⟨⟨resourceId 2, .write⟩, [4, 5], 1, false, false⟩]

def inputs : Inputs := ⟨1, zeroHash, 7, some ⟨zeroHash, ⟨⟨payload, accesses, []⟩, []⟩, before⟩⟩

def exit : Exit := ⟨.pubKey (resourceId 9), 100⟩

/-- The first resource is cleared, the second one only read. -/
def effects : Effects where
  exits := ⟨exit.encode⟩
  depositSpkHash := zeroHash
  resources := [⟨⟨resourceId 1, .write⟩, [], 0, false, true⟩, ⟨⟨resourceId 2, .write⟩, [4, 5], 1, false, false⟩]

theorem journal_and_outputs_cleared :
    ∃ exits resources outputs, JournalEntries.decode (journalBytes (fun _ => resourceId 3) inputs (.ok effects)) =
        .ok ⟨InputCommitment.ofInputs (fun _ => resourceId 3) inputs, .success exits zeroHash resources⟩ ∧
      Exits.iter exits = [.ok exit] ∧
      OutputResourceCommitment.decode.items resources = [.ok (.changed zeroHash), .ok .unchanged] ∧
      Outputs.decode (Outputs.encode (.ok effects)) 2 = .ok outputs ∧
      applyOps outputs.storageOps before = [[], [4, 5]] := by
  have hinputs : Inputs.decode.run inputsBuf = .ok (inputs, []) := by decide +kernel
  have hsized : GuestSized (.ok effects) := ⟨by decide, by decide⟩
  have hhandled : Handled before effects.resources := .cons ⟨[.resize 0], rfl⟩ (.cons ⟨[], rfl⟩ .nil)
  have ⟨_, hjournal, exits, resources, houtput, hexits, hresources, outputs, hhost, _, happly⟩ :=
    journal_and_outputs_roundTrip (fun _ => resourceId 3) hinputs hsized
  subst houtput
  exact ⟨exits, resources, outputs, hjournal, hexits [exit] rfl, hresources, hhost, happly before hhandled⟩

end Sample

end Vprogs.Abi
