import CasKit.Session

/-!
# Writes in two steps

`fs::write` creates the file and then fills it. An action whose writes take two steps passes
through the states of the action itself and, besides, through those where the file of a write
it is about to make has only a part of its bytes.
-/
namespace CasKit
open Effects Files Codec

/-- What follows on a first write: the second one, unless it failed. -/
def second {ε α : Type} (failed : ErrorKind → Action ε α) (whole : Action ε α) :
    Except ErrorKind Unit → Action ε α
  | .error e => failed e
  | .ok _ => whole

/-- The action with every write made twice, first with a part of the bytes. -/
def inTwo {ε α : Type} (part : Bytes → Bytes) : Action ε α → Action ε α
  | .ret a => .ret a
  | .throw e => .throw e
  | .call (.write q b) k => .call (.write q (part b)) <|
    second (fun e => inTwo part (k (.error e))) (.call (.write q b) fun r => inTwo part (k r))
  | .call o k => .call o fun r => inTwo part (k r)

section InTwo
variable {ε α : Type} {part : Bytes → Bytes} {w : World}

theorem answer_write_ok {t : Tree} {q : Path} {b : Bytes} (h : w.disk.write q b = .ok t) :
    answer (.write q b) w = (.ok (), { w with disk := t }) := by
  show w.update (w.disk.write q b) = _
  rw [h]
  rfl

theorem answer_write_error {q : Path} {b : Bytes} {e : ErrorKind}
    (h : w.disk.write q b = .error e) : answer (.write q b) w = (.error e, w) := by
  show w.update (w.disk.write q b) = _
  rw [h]
  rfl

/-- A write after a write of the same file. -/
theorem answer_write_again {t : Tree} {q : Path} {a : Bytes} (h : w.disk.write q a = .ok t)
    (b : Bytes) : answer (.write q b) { w with disk := t } = answer (.write q b) w := by
  show World.update { w with disk := t } (t.write q b) = w.update (w.disk.write q b)
  rw [Tree.write_write h b]
  obtain ⟨u, hu⟩ := Tree.write_of_write h b
  rw [hu]
  rfl

/-- Writing in two steps ends as writing in one does. -/
theorem run_inTwo (p : Action ε α) : run (inTwo part p) w = run p w := by
  induction p generalizing w with
  | ret a => rfl
  | throw e => rfl
  | call o k ih =>
    cases o with
    | write q b =>
      have hstep : run (inTwo part (.call (.write q b) k)) w =
          run (second (fun e => inTwo part (k (.error e)))
            (.call (.write q b) fun r => inTwo part (k r)) (answer (.write q (part b)) w).1)
            (answer (.write q (part b)) w).2 := rfl
      have hwhole : run (.call (.write q b) k) w =
          run (k (answer (.write q b) w).1) (answer (.write q b) w).2 := rfl
      rw [hstep, hwhole]
      cases hfirst : w.disk.write q (part b) with
      | error e =>
        rw [answer_write_error hfirst, answer_write_error (Tree.write_error hfirst b)]
        exact ih _
      | ok t =>
        rw [answer_write_ok hfirst]
        show run (inTwo part (k (answer (.write q b) { w with disk := t }).1))
          (answer (.write q b) { w with disk := t }).2 = _
        rw [answer_write_again hfirst b]
        exact ih _
    | _ => exact ih _

/-- Every moment of an action that writes in two steps is one of the action itself, or has a
part of a file that it is about to write. -/
theorem cutOff_inTwo (p : Action ε α) (n : ℕ) : (∃ m, cutOff n (inTwo part p) w = cutOff m p w) ∨
    ∃ m q b t, Prog.pending answer m p w = some (Request.write q b) ∧
      (cutOff m p w).disk.write q (part b) = .ok t ∧
      cutOff n (inTwo part p) w = { cutOff m p w with disk := t } := by
  induction p generalizing w n with
  | ret a => exact .inl ⟨0, by cases n <;> rfl⟩
  | throw e => exact .inl ⟨0, by cases n <;> rfl⟩
  | call o k ih =>
    -- a moment after the first request, as a moment of the whole action
    have hlater : ∀ n' r w', answer o w = (r, w') →
        ((∃ m, cutOff n' (inTwo part (k r)) w' = cutOff m (.call o k) w) ∨
          ∃ m q b t, Prog.pending answer m (.call o k) w = some (Request.write q b) ∧
            (cutOff m (.call o k) w).disk.write q (part b) = .ok t ∧
            cutOff n' (inTwo part (k r)) w' = { cutOff m (.call o k) w with disk := t }) := by
      intro n' r w' hr
      have hcut : ∀ m, cutOff (m + 1) (.call o k) w = cutOff m (k r) w' := by
        intro m
        rw [cutOff, Prog.cut_call, hr]
      have hpending : ∀ m, Prog.pending answer (m + 1) (.call o k) w =
          Prog.pending answer m (k r) w' := by
        intro m
        show Prog.pending answer m (k (answer o w).1) (answer o w).2 = _
        rw [hr]
      rcases ih r (w := w') n' with ⟨m, hm⟩ | ⟨m, q, b, t, hp, ht, hm⟩
      · exact .inl ⟨m + 1, by rw [hm, hcut]⟩
      · refine .inr ⟨m + 1, q, b, t, by rw [hpending, hp], by rw [hcut, ht], by rw [hm, hcut]⟩
    cases n with
    | zero => exact .inl ⟨0, rfl⟩
    | succ n =>
      cases o with
      | write q b =>
        have hstep : cutOff (n + 1) (inTwo part (.call (.write q b) k)) w =
            cutOff n (second (fun e => inTwo part (k (.error e)))
              (.call (.write q b) fun r => inTwo part (k r)) (answer (.write q (part b)) w).1)
              (answer (.write q (part b)) w).2 := rfl
        rw [hstep]
        cases hfirst : w.disk.write q (part b) with
        | error e =>
          rw [answer_write_error hfirst]
          exact hlater n _ _ (answer_write_error (Tree.write_error hfirst b))
        | ok t =>
          rw [answer_write_ok hfirst]
          cases n with
          | zero => exact .inr ⟨0, q, b, t, rfl, hfirst, rfl⟩
          | succ n =>
            have hsecond : cutOff (n + 1) (.call (.write q b) fun r => inTwo part (k r))
                { w with disk := t } = cutOff n (inTwo part (k (answer (.write q b) w).1))
                  (answer (.write q b) w).2 := by
              rw [cutOff, Prog.cut_call, answer_write_again hfirst b]
            rw [second, hsecond]
            exact hlater n _ _ rfl
      | _ => exact hlater n _ _ rfl

end InTwo

/-! ## What a call writes -/

/-- A write has to satisfy `P`. -/
def Request.WritesOnly (P : Path → Bytes → Prop) : Request → Prop
  | .write q b => P q b
  | _ => True

theorem Request.Reads.writesOnly {P : Path → Bytes → Prop} {o : Request} (ho : o.Reads) :
    o.WritesOnly P := by
  cases o <;> trivial

theorem Request.Looks.writesOnly {P : Path → Bytes → Prop} {o : Request} (ho : o.Looks) :
    o.WritesOnly P := by
  cases o <;> trivial

theorem writeFile_writes {P : Path → Bytes → Prop} {q : Path} {b : Bytes} (h : P q b) :
    (writeFile q b).Uses (Request.WritesOnly P) := ⟨h, fun r => Prog.Uses.ofExcept r⟩

theorem createDirAll_writes {P : Path → Bytes → Prop} (q : Path) :
    (createDirAll q).Uses (Request.WritesOnly P) := ⟨trivial, fun r => Prog.Uses.ofExcept r⟩

namespace BlobStore
variable {c : Crates} {s : BlobStore} {data : Bytes}

theorem ensureParentDir_writes {P : Path → Bytes → Prop} (p : Path) :
    (ensureParentDir p).Uses (Request.WritesOnly P) := by
  refine ⟨trivial, fun known => ?_⟩
  cases (known : Bool) with
  | true => trivial
  | false => exact (createDirAll_writes p).mapErr.bind fun _ => ⟨trivial, fun _ => trivial⟩

theorem writeBlob_writes (p : Path) : (s.writeBlob c p data).Uses
    (Request.WritesOnly fun q b => q = p ∧ s.storedForm c data = .ok b) := by
  rw [writeBlob_eq]
  refine (ensureParentDir_writes _).bind fun _ => ?_
  cases hform : s.storedForm c data with
  | error e => trivial
  | ok raw => exact (writeFile_writes (P := fun q b => q = p ∧ Except.ok raw = .ok b)
      ⟨rfl, rfl⟩).mapErr

theorem storeHash_writes (p : Path) (h : Hash) :
    ((s.writeBlob c p data >>= fun _ => (Prog.ret h : Action CasError Hash)) >>= fun _ =>
      (Prog.ret () : Action CasError Unit)).Uses
        (Request.WritesOnly fun q b => q = p ∧ s.storedForm c data = .ok b) := by
  have hwrite : (s.writeBlob c p data >>= fun _ => (Prog.ret h : Action CasError Hash)).Uses
      (Request.WritesOnly fun q b => q = p ∧ s.storedForm c data = .ok b) :=
    (writeBlob_writes p).bind fun _ => trivial
  exact hwrite.bind fun _ => trivial

/-- A put writes the stored form of its bytes, at the path of their hash. -/
theorem put_writes (call : PutCall) : (call.action c s).Uses (Request.WritesOnly fun q b =>
    q = s.blobPath (hashBytes c call.bytes) ∧ s.storedForm c call.bytes = .ok b) := by
  cases call with
  | putBlob data =>
    refine ⟨trivial, fun there => ?_⟩
    cases (there : Bool) with
    | true => trivial
    | false => exact storeHash_writes _ _
  | putBlobNew data =>
    refine ⟨trivial, fun there => ?_⟩
    cases (there : Bool) with
    | true => trivial
    | false => exact storeHash_writes _ _
  | putBlobWithHash data expected =>
    refine ⟨trivial, fun there => ?_⟩
    cases (there : Bool) with
    | true => trivial
    | false =>
      show (Prog.ofExcept (verifyHash c data expected) >>= fun _ =>
        s.writeBlob c (s.blobPath expected) data : Action CasError Unit).Uses _
      by_cases hhash : hashBytes c data = expected
      · subst hhash
        rw [(verifyHash_ok c).mpr rfl]
        exact writeBlob_writes _
      · rw [show verifyHash c data expected = .error (.hashMismatch expected.toHex
          (hashBytes c data).toHex) by simp [verifyHash, hhash]]
        trivial

end BlobStore

end CasKit
