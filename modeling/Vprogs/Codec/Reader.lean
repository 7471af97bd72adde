import Vprogs.Codec.Bytes
import Vprogs.Outcome

/-!
A self-advancing decoder over a byte buffer and the matching encoders. The
state of a reader is the part of the buffer not consumed yet; an error leaves
no buffer, since no caller reads on after one. For each field there is one
lemma that says what it returns on an encoded field followed by anything.
-/
namespace Vprogs

/-- The conversion that `?` applies to a codec error. -/
class FromCodec (ε : Type) where
  fromCodec : CodecError → ε

instance : FromCodec CodecError := ⟨id⟩

/-- A decoder reports errors by value; it cannot abort. -/
abbrev Reader (ε α : Type) := StateT Bytes (Except ε) α

/-- The text of a failed zero-copy cast comes from the cast library. -/
def castFailed : CodecError := .zeroCopy "conversion failed"

namespace Reader

variable {ε α β : Type}

/-- Ends the read with an error of the reader's own error type. -/
def fail (e : ε) : Reader ε α := fun _ => .error e

variable [FromCodec ε]

def failDecode (field : String) : Reader ε α := fail (FromCodec.fromCodec (.decode field))

def bytes (len : Nat) (field : String) : Reader ε Bytes := fun buf =>
  if len ≤ buf.length then .ok (buf.take len, buf.drop len)
  else failDecode field buf

def array (n : Nat) (field : String) : Reader ε (Arr n) := fun buf =>
  if h : n ≤ buf.length then .ok (⟨buf.take n, by simp [h]⟩, buf.drop n)
  else failDecode field buf

def byte (field : String) : Reader ε UInt8 := do
  let a ← array 1 field
  pure (a.val.head (by simp [← List.length_pos_iff]))

def bool (field : String) : Reader ε Bool := do
  let b ← byte field
  pure (b != 0)

def leU16 (field : String) : Reader ε UInt16 := do
  let a ← array 2 field
  pure (UInt16.ofNat (leNat a.val))

def leU32 (field : String) : Reader ε UInt32 := do
  let a ← array 4 field
  pure (UInt32.ofNat (leNat a.val))

def leU64 (field : String) : Reader ε UInt64 := do
  let a ← array 8 field
  pure (UInt64.ofNat (leNat a.val))

def blob (field : String) : Reader ε Bytes := do
  let len ← leU32 field
  bytes len.toNat field

def string (field : String) : Reader ε String := do
  let bs ← blob field
  match String.fromUTF8? ⟨bs.toArray⟩ with
  | some s => pure s
  | none => failDecode field

/-- A buffer cut into elements of equal size. -/
def chunks (size : Nat) : Nat → Bytes → List Bytes
  | 0, _ => []
  | count + 1, bs => bs.take size :: chunks size count (bs.drop size)

/-- A length-prefixed slice of fixed-size elements. `cast` is the validity check
of one element; a length past the address space fails like a missing byte. -/
def sliceAs (size : Nat) (cast : Bytes → Option α) (field : String) : Reader ε (List α) := do
  let count ← leU32 field
  let bs ← bytes (count.toNat * size) field
  match (chunks size count.toNat bs).mapM cast with
  | some items => pure items
  | none => fail (FromCodec.fromCodec castFailed)

/-- What an iterator over back-to-back entries yields up to and including its
first error, which is where every consumer stops. An entry is at least a byte
long, so the buffer's length bounds the number of entries. -/
def itemsUpTo {ε α : Type} (r : Reader ε α) : Nat → Bytes → List (Except ε α)
  | 0, _ => []
  | fuel + 1, buf =>
    if buf.isEmpty then []
    else match r.run buf with
      | .ok (a, rest) => .ok a :: itemsUpTo r fuel rest
      | .error e => [.error e]

def items {ε α : Type} (r : Reader ε α) (buf : Bytes) : List (Except ε α) :=
  itemsUpTo r buf.length buf

end Reader

/-! ### Encoders -/

def writeBlob (bs : Bytes) : Bytes := leBytes 4 bs.length ++ bs

def utf8 (s : String) : Bytes := s.toUTF8.data.toList

/-- A count followed by each element's own encoding. -/
def encodeMany {α : Type} (items : List α) (encodeFn : α → Bytes) : Bytes :=
  leBytes 4 items.length ++ items.flatMap encodeFn

/-! ### What a successful read consumed -/

namespace Reader

variable {ε α β : Type}

@[simp] theorem run_bind (x : Reader ε α) (f : α → Reader ε β) (buf : Bytes) :
    (x >>= f).run buf = match x.run buf with
      | .ok (a, rest) => (f a).run rest
      | .error e => .error e := by
  rw [StateT.run_bind]
  cases x.run buf with
  | ok p => rfl
  | error e => rfl

@[simp] theorem run_pure (a : α) (buf : Bytes) :
    (pure a : Reader ε α).run buf = .ok (a, buf) := rfl

@[simp] theorem run_fail (e : ε) (buf : Bytes) :
    (fail e : Reader ε α).run buf = .error e := rfl

@[simp] theorem run_lift (x : Except ε α) (buf : Bytes) :
    (StateT.lift x : Reader ε α).run buf = x.map (·, buf) := by
  cases x <;> rfl

theorem run_bind_of_ok {x : Reader ε α} {f : α → Reader ε β} {buf rest : Bytes} {a : α}
    (h : x.run buf = .ok (a, rest)) : (x >>= f).run buf = (f a).run rest := by
  rw [run_bind, h]

theorem run_bind_eq_ok {x : Reader ε α} {f : α → Reader ε β} {buf rest : Bytes} {b : β} :
    (x >>= f).run buf = .ok (b, rest) ↔
      ∃ a mid, x.run buf = .ok (a, mid) ∧ (f a).run mid = .ok (b, rest) := by
  rw [run_bind]
  match x.run buf with
  | .ok (a, mid) => simp
  | .error e => simp

variable [FromCodec ε]

@[simp] theorem run_bytes {len : Nat} {field : String} {buf bs rest : Bytes} :
    (bytes len field : Reader ε Bytes).run buf = .ok (bs, rest) ↔
      buf = bs ++ rest ∧ bs.length = len := by
  change (if len ≤ buf.length then Except.ok (buf.take len, buf.drop len)
    else Except.error _) = _ ↔ _
  split
  · next h =>
    rw [Except.ok.injEq, Prod.mk.injEq]
    constructor
    · intro ⟨ht, hd⟩
      refine ⟨?_, ?_⟩
      · rw [← ht, ← hd, List.take_append_drop]
      · rw [← ht, List.length_take, Nat.min_eq_left h]
    · intro ⟨hb, hl⟩
      subst hb hl
      simp
  · next h =>
    simp only [reduceCtorEq, false_iff]
    intro ⟨hb, hl⟩
    apply h
    rw [hb, List.length_append]
    omega

@[simp] theorem run_array {n : Nat} {field : String} {buf rest : Bytes} {a : Arr n} :
    (array n field : Reader ε (Arr n)).run buf = .ok (a, rest) ↔ buf = a.val ++ rest := by
  change (if h : n ≤ buf.length then Except.ok ((⟨buf.take n, _⟩ : Arr n), buf.drop n)
    else Except.error _) = _ ↔ _
  split
  · next h =>
    rw [Except.ok.injEq, Prod.mk.injEq]
    constructor
    · intro ⟨ht, hd⟩
      rw [← ht, ← hd, List.take_append_drop]
    · intro hb
      subst hb
      refine ⟨Arr.ext ?_, ?_⟩ <;> simp
  · next h =>
    simp only [reduceCtorEq, false_iff]
    intro hb
    apply h
    rw [hb, List.length_append, a.length_val]
    omega

@[simp] theorem run_byte {field : String} {buf rest : Bytes} {b : UInt8} :
    (byte field : Reader ε UInt8).run buf = .ok (b, rest) ↔ buf = b :: rest := by
  simp only [byte, run_bind_eq_ok, run_array, run_pure, Except.ok.injEq, Prod.mk.injEq]
  constructor
  · intro ⟨a, mid, hb, ha, hm⟩
    match a with
    | ⟨[x], _⟩ => subst ha hm; exact hb
  · intro hb
    exact ⟨⟨[b], rfl⟩, rest, hb, rfl, rfl⟩

theorem run_bool {field : String} {buf rest : Bytes} {b : Bool} :
    (bool field : Reader ε Bool).run buf = .ok (b, rest) ↔
      ∃ x, buf = x :: rest ∧ b = (x != 0) := by
  simp only [bool, run_bind_eq_ok, run_byte, run_pure, Except.ok.injEq, Prod.mk.injEq]
  constructor
  · intro ⟨x, mid, hb, hx, hm⟩
    exact ⟨x, hm ▸ hb, hx.symm⟩
  · intro ⟨x, hb, hx⟩
    exact ⟨x, rest, hb, hx.symm, rfl⟩

/-- A number read from `w` bytes is read back exactly from its own encoding. -/
private theorem run_word {w : Nat} {field : String} {γ : Type} (ofNat : Nat → γ) (toNat : γ → Nat)
    (hof : ∀ x, ofNat (toNat x) = x) (hto : ∀ n, n < 256 ^ w → toNat (ofNat n) = n)
    (hlt : ∀ x, toNat x < 256 ^ w) {buf rest : Bytes} {x : γ} :
    ((do let a ← array w field; pure (ofNat (leNat a.val))) : Reader ε γ).run buf = .ok (x, rest) ↔
      buf = leBytes w (toNat x) ++ rest := by
  simp only [run_bind_eq_ok, run_array, run_pure, Except.ok.injEq, Prod.mk.injEq]
  constructor
  · intro ⟨a, mid, hb, hx, hm⟩
    subst hx hm
    have h := leBytes_leNat a.val
    rw [a.length_val] at h
    rw [hto _ (by simpa using leNat_lt a.val), h]
    exact hb
  · intro hb
    refine ⟨⟨leBytes w (toNat x), length_leBytes w _⟩, rest, hb, ?_, rfl⟩
    rw [leNat_leBytes (hlt x), hof]

@[simp] theorem run_leU16 {field : String} {buf rest : Bytes} {x : UInt16} :
    (leU16 field : Reader ε UInt16).run buf = .ok (x, rest) ↔ buf = leBytes 2 x.toNat ++ rest :=
  run_word _ _ (fun _ => UInt16.ofNat_toNat) (fun _ h => UInt16.toNat_ofNat_of_lt h)
    UInt16.toNat_lt

@[simp] theorem run_leU32 {field : String} {buf rest : Bytes} {x : UInt32} :
    (leU32 field : Reader ε UInt32).run buf = .ok (x, rest) ↔ buf = leBytes 4 x.toNat ++ rest :=
  run_word _ _ (fun _ => UInt32.ofNat_toNat) (fun _ h => UInt32.toNat_ofNat_of_lt h)
    UInt32.toNat_lt

@[simp] theorem run_leU64 {field : String} {buf rest : Bytes} {x : UInt64} :
    (leU64 field : Reader ε UInt64).run buf = .ok (x, rest) ↔ buf = leBytes 8 x.toNat ++ rest :=
  run_word _ _ (fun _ => UInt64.ofNat_toNat) (fun _ h => UInt64.toNat_ofNat_of_lt h)
    UInt64.toNat_lt

@[simp] theorem run_blob {field : String} {buf rest bs : Bytes} :
    (blob field : Reader ε Bytes).run buf = .ok (bs, rest) ↔
      buf = writeBlob bs ++ rest ∧ bs.length < 2 ^ 32 := by
  simp only [blob, run_bind_eq_ok, run_leU32, run_bytes]
  constructor
  · intro ⟨len, mid, hb, hm, hl⟩
    subst hb hm
    refine ⟨?_, ?_⟩
    · rw [writeBlob, hl, List.append_assoc]
    · rw [hl]
      exact len.toNat_lt
  · intro ⟨hb, hl⟩
    have hof : (UInt32.ofNat bs.length).toNat = bs.length := UInt32.toNat_ofNat_of_lt hl
    refine ⟨UInt32.ofNat bs.length, bs ++ rest, ?_, rfl, hof.symm⟩
    rw [hof, ← List.append_assoc]
    exact hb

theorem run_string_utf8 {field s : String} {rest : Bytes} (hs : (utf8 s).length < 2 ^ 32) :
    (string field : Reader ε String).run (writeBlob (utf8 s) ++ rest) = .ok (s, rest) := by
  have hb : (blob field : Reader ε Bytes).run (writeBlob (utf8 s) ++ rest) =
      .ok (utf8 s, rest) := run_blob.mpr ⟨rfl, hs⟩
  have hv : String.fromUTF8? ⟨(utf8 s).toArray⟩ = some s := by
    simp only [utf8, String.fromUTF8?, String.toUTF8, Array.toArray_toList]
    exact dif_pos s.isValidUTF8
  rw [string, run_bind, hb]
  simp only [hv]
  rfl

/-! ### Slices of fixed-size elements -/

theorem chunks_flatMap {size : Nat} {enc : α → Bytes} (hlen : ∀ a, (enc a).length = size)
    (items : List α) : chunks size items.length (items.flatMap enc) = items.map enc := by
  induction items with
  | nil => rfl
  | cons a items ih =>
    have ht : (enc a ++ items.flatMap enc).take size = enc a := by simp [← hlen a]
    have hd : (enc a ++ items.flatMap enc).drop size = items.flatMap enc := by simp [← hlen a]
    rw [List.length_cons, List.flatMap_cons, chunks, ht, hd, ih, List.map_cons]

theorem chunks_mapM {size : Nat} {enc : α → Bytes} {cast : Bytes → Option α}
    (hcast : ∀ bs a, bs.length = size → cast bs = some a → bs = enc a) {count : Nat} {bs : Bytes}
    {items : List α} (hbs : bs.length = count * size) (h : (chunks size count bs).mapM cast = some items)
    : items.length = count ∧ bs = items.flatMap enc := by
  induction count generalizing bs items with
  | zero =>
    have hnil : bs = [] := by simpa using hbs
    simp only [chunks, List.mapM_nil] at h
    cases h
    exact ⟨rfl, hnil⟩
  | succ count ih =>
    rw [Nat.succ_mul] at hbs
    rw [chunks, List.mapM_cons] at h
    cases hc : cast (bs.take size) with
    | none => rw [hc] at h; cases h
    | some a =>
      cases ht : (chunks size count (bs.drop size)).mapM cast with
      | none => rw [hc, ht] at h; cases h
      | some tl =>
        rw [hc, ht] at h
        cases h
        have hd := ih (by rw [List.length_drop]; omega) ht
        have ha := hcast _ a (by rw [List.length_take]; omega) hc
        refine ⟨by rw [List.length_cons, hd.1], ?_⟩
        rw [List.flatMap_cons, ← ha, ← hd.2, List.take_append_drop]

/-- A written slice is read back when the check accepts each written element. -/
theorem run_sliceAs_encodeMany {size : Nat} {cast : Bytes → Option α} {enc : α → Bytes}
    {items : List α} (hlen : ∀ a, (enc a).length = size) (hcast : ∀ a ∈ items, cast (enc a) = some a)
    (hcount : items.length < 2 ^ 32) (field : String) (rest : Bytes) :
    (sliceAs size cast field : Reader ε (List α)).run (encodeMany items enc ++ rest) =
      .ok (items, rest) := by
  have hof : (UInt32.ofNat items.length).toNat = items.length := UInt32.toNat_ofNat_of_lt hcount
  have hcm : (chunks size items.length (items.flatMap enc)).mapM cast = some items := by
    rw [chunks_flatMap hlen]
    clear hcount hof
    induction items with
    | nil => rfl
    | cons a items ih =>
      have head := hcast a List.mem_cons_self
      have tail := ih fun b hb => hcast b (List.mem_cons_of_mem a hb)
      simp only [List.map_cons, List.mapM_cons, head, tail]
      rfl
  simp only [sliceAs, run_bind_eq_ok, run_leU32, run_bytes]
  refine ⟨UInt32.ofNat items.length, items.flatMap enc ++ rest, ?_, items.flatMap enc, rest,
    ⟨rfl, ?_⟩, ?_⟩
  · rw [hof, encodeMany, List.append_assoc]
  · rw [hof, List.length_flatMap]
    simp [hlen]
  · rw [hof, hcm]
    rfl

/-- A slice read back is the list of its encoded elements, whenever the validity
check accepts exactly the encodings. -/
theorem run_sliceAs {size : Nat} {cast : Bytes → Option α} {enc : α → Bytes}
    (hlen : ∀ a, (enc a).length = size) (hcast : ∀ bs a, bs.length = size → (cast bs = some a ↔ bs = enc a))
    {field : String} {buf rest : Bytes} {items : List α} :
    (sliceAs size cast field : Reader ε (List α)).run buf = .ok (items, rest) ↔
      buf = encodeMany items enc ++ rest ∧ items.length < 2 ^ 32 := by
  constructor
  · intro h
    simp only [sliceAs, run_bind_eq_ok, run_leU32, run_bytes] at h
    have ⟨count, mid, hb, bs, mid', ⟨hm, hl⟩, hrun⟩ := h
    cases hc : (chunks size count.toNat bs).mapM cast with
    | none => rw [hc] at hrun; cases hrun
    | some found =>
      rw [hc] at hrun
      cases hrun
      have ⟨hn, hbs⟩ := chunks_mapM (fun bs a h => (hcast bs a h).mp) hl hc
      refine ⟨?_, hn ▸ count.toNat_lt⟩
      rw [hb, hm, encodeMany, hn, hbs, List.append_assoc]
  · intro ⟨hb, hl⟩
    rw [hb]
    exact run_sliceAs_encodeMany hlen (fun a _ => (hcast _ a (hlen a)).mpr rfl) hl field rest

/-- A slice has as many elements as its count says. -/
theorem length_of_run_sliceAs {size : Nat} {cast : Bytes → Option α} {field : String} {buf rest : Bytes}
    {items : List α} (h : (sliceAs size cast field : Reader ε (List α)).run buf = .ok (items, rest)) :
    items.length < 2 ^ 32 := by
  simp only [sliceAs, run_bind_eq_ok, run_leU32, run_bytes] at h
  have ⟨count, _, _, bs, _, _, hrun⟩ := h
  have hlength : ∀ {n : Nat} {bs : Bytes} {found : List α},
      (chunks size n bs).mapM cast = some found → found.length = n := by
    intro n
    induction n with
    | zero => intro bs found hfound; cases hfound; rfl
    | succ n ih =>
      intro bs found hfound
      rw [chunks, List.mapM_cons] at hfound
      have ⟨a, _, hrest⟩ := Option.bind_eq_some_iff.mp hfound
      have ⟨tail, htail, heq⟩ := Option.bind_eq_some_iff.mp hrest
      cases heq
      rw [List.length_cons, ih htail]
  cases hc : (chunks size count.toNat bs).mapM cast with
  | none => rw [hc] at hrun; cases hrun
  | some found =>
    rw [hc] at hrun
    cases hrun
    exact hlength hc ▸ count.toNat_lt

omit [FromCodec ε] in
theorem itemsUpTo_flatMap {r : Reader ε α} {enc : α → Bytes} (hne : ∀ a, enc a ≠ []) {xs : List α}
    (hread : ∀ a ∈ xs, ∀ rest, r.run (enc a ++ rest) = .ok (a, rest)) {fuel : Nat}
    (hfuel : (xs.flatMap enc).length ≤ fuel) : itemsUpTo r fuel (xs.flatMap enc) = xs.map .ok := by
  induction xs generalizing fuel with
  | nil => cases fuel <;> simp [itemsUpTo]
  | cons a xs ih =>
    have hpos := List.length_pos_iff.mpr (hne a)
    rw [List.flatMap_cons, List.length_append] at hfuel
    match fuel with
    | 0 => omega
    | fuel + 1 =>
      have hread' := fun b hb => hread b (List.mem_cons_of_mem a hb)
      have htail := ih hread' (by omega : (xs.flatMap enc).length ≤ fuel)
      rw [List.flatMap_cons, itemsUpTo, hread a List.mem_cons_self, if_neg (by simp [hne a])]
      change Except.ok a :: itemsUpTo r fuel (xs.flatMap enc) = _
      rw [htail, List.map_cons]

omit [FromCodec ε] in
theorem items_flatMap {r : Reader ε α} {enc : α → Bytes} (hne : ∀ a, enc a ≠ [])
    {xs : List α} (hread : ∀ a ∈ xs, ∀ rest, r.run (enc a ++ rest) = .ok (a, rest)) :
    items r (xs.flatMap enc) = xs.map .ok :=
  itemsUpTo_flatMap hne hread (Nat.le_refl _)

/-! ### What a failed read reports -/

/-- Every error of the reader satisfies `E`. -/
def Errs {ε α : Type} (E : ε → Prop) (r : Reader ε α) : Prop :=
  ∀ buf e, r.run buf = .error e → E e

namespace Errs

variable {E : ε → Prop} {field : String}

omit [FromCodec ε]

theorem pure (a : α) : Errs E (Pure.pure a : Reader ε α) := by
  intro buf e h
  cases h

theorem fail {e : ε} (h : E e) : Errs E (Reader.fail e : Reader ε α) := by
  intro buf e' he
  cases he
  exact h

theorem bind {x : Reader ε α} {f : α → Reader ε β} (hx : Errs E x) (hf : ∀ a, Errs E (f a)) :
    Errs E (x >>= f) := by
  intro buf e he
  rw [run_bind] at he
  match hrun : x.run buf with
  | .ok (a, rest) =>
    rw [hrun] at he
    exact hf a rest e he
  | .error e' =>
    rw [hrun] at he
    cases he
    exact hx buf e hrun

variable [FromCodec ε]

theorem failDecode (h : E (FromCodec.fromCodec (.decode field))) :
    Errs E (Reader.failDecode field : Reader ε α) := fail h

theorem bytes {len : Nat} (h : E (FromCodec.fromCodec (.decode field))) :
    Errs E (Reader.bytes len field : Reader ε Bytes) := by
  intro buf e he
  change (if len ≤ buf.length then Except.ok _ else Except.error _) = _ at he
  split at he
  · cases he
  · cases he
    exact h

theorem array {n : Nat} (h : E (FromCodec.fromCodec (.decode field))) :
    Errs E (Reader.array n field : Reader ε (Arr n)) := by
  intro buf e he
  change (if _ : n ≤ buf.length then Except.ok _ else Except.error _) = _ at he
  split at he
  · cases he
  · cases he
    exact h

section

variable (h : E (FromCodec.fromCodec (.decode field)))
include h

theorem byte : Errs E (Reader.byte field : Reader ε UInt8) := bind (array h) fun _ => pure _

theorem leU16 : Errs E (Reader.leU16 field : Reader ε UInt16) := bind (array h) fun _ => pure _

theorem leU32 : Errs E (Reader.leU32 field : Reader ε UInt32) := bind (array h) fun _ => pure _

theorem leU64 : Errs E (Reader.leU64 field : Reader ε UInt64) := bind (array h) fun _ => pure _

end

end Errs

/-! ### Reads that look at nothing but what they take -/

/-- A successful read depends on the bytes it took alone: whatever follows them,
it returns the same value and leaves what follows. -/
def Confined {ε α : Type} (r : Reader ε α) : Prop :=
  ∀ buf a rest, r.run buf = .ok (a, rest) →
    ∃ used, buf = used ++ rest ∧ ∀ tail, r.run (used ++ tail) = .ok (a, tail)

namespace Confined

variable {field : String}

omit [FromCodec ε]

theorem suffix {r : Reader ε α} (hr : Confined r) {buf rest : Bytes} {a : α}
    (h : r.run buf = .ok (a, rest)) : rest <:+ buf :=
  have ⟨used, hbuf, _⟩ := hr buf a rest h
  ⟨used, hbuf.symm⟩

theorem pure (a : α) : Confined (Pure.pure a : Reader ε α) := by
  intro buf b rest h
  cases h
  exact ⟨[], rfl, fun _ => rfl⟩

theorem fail (e : ε) : Confined (Reader.fail e : Reader ε α) := by
  intro buf b rest h
  cases h

theorem bind {x : Reader ε α} {f : α → Reader ε β} (hx : Confined x) (hf : ∀ a, Confined (f a)) :
    Confined (x >>= f) := by
  intro buf b rest h
  have ⟨a, mid, ha, hb⟩ := run_bind_eq_ok.mp h
  have ⟨used, hbuf, hused⟩ := hx buf a mid ha
  have ⟨used', hmid, hused'⟩ := hf a mid b rest hb
  refine ⟨used ++ used', by rw [hbuf, hmid, List.append_assoc], fun tail => ?_⟩
  rw [List.append_assoc]
  exact run_bind_eq_ok.mpr ⟨a, used' ++ tail, hused _, hused' _⟩

variable [FromCodec ε]

theorem bytes (len : Nat) : Confined (Reader.bytes len field : Reader ε Bytes) := by
  intro buf bs rest h
  have ⟨hbuf, hlen⟩ := run_bytes.mp h
  exact ⟨bs, hbuf, fun tail => run_bytes.mpr ⟨rfl, hlen⟩⟩

theorem array (n : Nat) : Confined (Reader.array n field : Reader ε (Arr n)) := by
  intro buf a rest h
  exact ⟨a.val, run_array.mp h, fun tail => run_array.mpr rfl⟩

theorem byte : Confined (Reader.byte field : Reader ε UInt8) := bind (array 1) fun _ => pure _

theorem leU32 : Confined (Reader.leU32 field : Reader ε UInt32) := bind (array 4) fun _ => pure _

theorem leU64 : Confined (Reader.leU64 field : Reader ε UInt64) := bind (array 8) fun _ => pure _

theorem sliceAs (size : Nat) (cast : Bytes → Option α) :
    Confined (Reader.sliceAs size cast field : Reader ε (List α)) := by
  refine bind leU32 fun count => bind (bytes _) fun bs => ?_
  split
  · exact pure _
  · exact fail _

end Confined

/-! ### Reads that take a minimum of bytes -/

/-- A successful read takes at least `size` bytes. -/
def Takes {ε α : Type} (size : Nat) (r : Reader ε α) : Prop :=
  ∀ buf a rest, r.run buf = .ok (a, rest) → rest.length + size ≤ buf.length

namespace Takes

variable {m n : Nat} {field : String}

omit [FromCodec ε]

theorem pure (a : α) : Takes 0 (Pure.pure a : Reader ε α) := by
  intro buf b rest h
  cases h
  exact Nat.le_refl _

theorem bind {x : Reader ε α} {f : α → Reader ε β} (hx : Takes m x) (hf : ∀ a, Takes n (f a)) :
    Takes (m + n) (x >>= f) := by
  intro buf b rest h
  have ⟨a, mid, ha, hb⟩ := run_bind_eq_ok.mp h
  have hm := hx buf a mid ha
  have hn := hf a mid b rest hb
  omega

theorem weaken {r : Reader ε α} (h : Takes m r) (hle : n ≤ m) : Takes n r := by
  intro buf a rest hrun
  have hm := h buf a rest hrun
  omega

variable [FromCodec ε]

theorem bytes (len : Nat) : Takes len (Reader.bytes len field : Reader ε Bytes) := by
  intro buf bs rest h
  have ⟨hbuf, hlen⟩ := run_bytes.mp h
  rw [hbuf, List.length_append]
  omega

theorem array (len : Nat) : Takes len (Reader.array len field : Reader ε (Arr len)) := by
  intro buf a rest h
  rw [run_array.mp h, List.length_append, a.length_val]
  omega

theorem byte : Takes 1 (Reader.byte field : Reader ε UInt8) := bind (array 1) fun _ => pure _

theorem leU16 : Takes 2 (Reader.leU16 field : Reader ε UInt16) := bind (array 2) fun _ => pure _

theorem leU64 : Takes 8 (Reader.leU64 field : Reader ε UInt64) := bind (array 8) fun _ => pure _

end Takes

/-! ### Reads that refuse less -/

/-- Whatever `r` reads, `r'` reads the same way. -/
def Refines {ε α : Type} (r r' : Reader ε α) : Prop :=
  ∀ buf found, r.run buf = .ok found → r'.run buf = .ok found

namespace Refines

omit [FromCodec ε]

theorem refl (r : Reader ε α) : Refines r r := fun _ _ h => h

theorem fail (e : ε) (r : Reader ε α) : Refines (Reader.fail e) r := by
  intro buf found h
  cases h

theorem bind {x x' : Reader ε α} {f f' : α → Reader ε β} (hx : Refines x x')
    (hf : ∀ a, Refines (f a) (f' a)) : Refines (x >>= f) (x' >>= f') := by
  intro buf found h
  have ⟨a, mid, ha, hb⟩ := run_bind_eq_ok.mp h
  exact run_bind_eq_ok.mpr ⟨a, mid, hx _ _ ha, hf a _ _ hb⟩

end Refines

end Reader

end Vprogs
