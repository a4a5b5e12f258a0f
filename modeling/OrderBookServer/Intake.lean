import OrderBookServer.FileReads
import OrderBookServer.ListenRuns

/-!
# What is read of the files

While files only grow, what was read since a cursor was opened is exactly the bytes of its
file from where it began, but for the record it is in. It began at the first byte, or at the
end of the file and with a fence. No cursor goes away before its file is read to the end,
unless the stream is fenced. So whatever is not read is behind a fence, and every block in
the live books was a line of a file of its source.
-/
namespace OrderBookServer

open Records FileCursor

/-! ### One cursor -/

namespace FileCursor

variable {start limit budget : ℕ} {contents more read : List UInt8} {data : List String}
  {cursor : FileCursor} {file : FileView}

/-- A file that grows is tracked as before. -/
theorem Tracks.grow (h : Tracks start limit contents read data cursor) (hmore : contents <+: more) :
    Tracks start limit more read data cursor :=
  { h with
    start_le := h.start_le.trans hmore.length_le
    sliced := h.sliced.trans (hmore.drop start) }

theorem verifyFile_eq_ok (h : cursor.verifyFile file = .ok ()) :
    file.metadata = .ok () ∧ file.sameFile = true ∧ cursor.offset ≤ file.contents.length := by
  unfold verifyFile at h
  cases hmetadata : file.metadata with
  | error message => simp [hmetadata] at h
  | ok =>
    simp only [hmetadata] at h
    split_ifs at h with hsame hshort
    exact ⟨rfl, by simpa using hsame, by omega⟩

/-- A turn that succeeds has met nothing unusual. -/
theorem quiet_of_readTurn {out : String × Bool × ℕ} (hgrown : contents <+: file.contents)
    (h : (cursor.readTurn file budget).2 = .ok out) : Quiet cursor contents file := by
  unfold readTurn at h
  cases hverify : cursor.verifyFile file with
  | error e => simp [hverify] at h
  | ok =>
    obtain ⟨hmetadata, hsame, -⟩ := verifyFile_eq_ok hverify
    cases hexpired : cursor.partialExpired file.now with
    | true => simp [hverify, hexpired] at h
    | false =>
      cases hread : file.read with
      | error message => simp [hverify, hexpired, hread] at h
      | ok n => exact ⟨hgrown, hmetadata, hsame, ⟨n, hread⟩, hexpired⟩

/-- A turn never goes back. -/
theorem offset_le_readTurn (cursor : FileCursor) (file : FileView) (budget : ℕ) :
    cursor.offset ≤ (cursor.readTurn file budget).1.offset := by
  have htake (cursor : FileCursor) (completeEnd : Option ℕ) :
      (cursor.takeComplete completeEnd).1.offset = cursor.offset := by
    cases completeEnd <;> rfl
  have hmark (cursor : FileCursor) (completed : Bool) (now : Instant) :
      (cursor.markPartial completed now).offset = cursor.offset := by
    obtain ⟨since, hsince⟩ := markPartial_eq cursor completed now
    rw [hsince]
  unfold readTurn
  split
  · rfl
  · split_ifs
    · rfl
    · split
      · rfl
      · dsimp only
        split
        · simp
        · split
          · rename_i hcut
            have hoffset := congrArg (fun out => out.1.offset) hcut
            simp only [htake] at hoffset
            simp [← hoffset]
          · rename_i hcut
            have hoffset := congrArg (fun out => out.1.offset) hcut
            simp only [htake] at hoffset
            simp [hmark, ← hoffset]

/-- What a turn reads is a number of whole records of the file, from where the cursor began. -/
theorem Tracks.records_subset (h : Tracks start limit contents read data cursor) {text : String}
    (htext : text ∈ data) : recordsOf text ⊆ records newline [] (contents.drop start) := by
  intro record hrecord
  have hread : record ∈ records newline [] read := by
    rw [← h.delivered]
    exact List.mem_flatMap_of_mem htext hrecord
  obtain ⟨more, hmore⟩ := h.sliced
  rw [← hmore, Records.records_append]
  exact List.mem_append_left _ hread

/-- A cursor with nothing left in its file has handed over all of it. -/
theorem Tracks.flatMap_bytes_of_end (h : Tracks start limit contents read data cursor)
    (hwhole : cursor.partialBytes = []) (hend : contents.length = cursor.offset) :
    data.flatMap Utf8.bytes = contents.drop start := by
  have hbytes := h.flatMap_bytes
  rw [hwhole, List.append_nil] at hbytes
  rw [hbytes]
  apply h.sliced.eq_of_length
  rw [List.length_drop, hend, h.offset]
  omega

end FileCursor

/-! ### The table -/

/-- What was read under a path, and in which file. -/
def textsOf (path : PathBuf) (texts : List SourceText) : List (Inode × String) :=
  (texts.filter fun text => text.path = path).map fun text => (text.inode, text.data)

theorem textsOf_append (path : PathBuf) (texts more : List SourceText) :
    textsOf path (texts ++ more) = textsOf path texts ++ textsOf path more := by
  simp [textsOf]

@[simp] theorem textsOf_nil (path : PathBuf) : textsOf path [] = [] := rfl

/-- What a cursor has delivered, where it began as is given: under a path, in a file, at an
offset, with texts read since. -/
structure Delivered (limit : ℕ) (disk : Disk)
    (begins : PathBuf → Inode → ℕ → List (Inode × String) → Prop)
    (path : PathBuf) (file : OpenFile) (start : ℕ) (read : List UInt8) (data : List String) :
    Prop where
  tracks : Tracks start limit (disk.contents file.inode) read data file.cursor
  begun : begins path file.inode start (data.map (Prod.mk file.inode))

/-- Every cursor has delivered what it read. -/
def Intake (limit : ℕ) (disk : Disk) (begins : PathBuf → Inode → ℕ → List (Inode × String) → Prop)
    (cursors : Cursors) : Prop :=
  ∀ path file, cursors.lookup path = some file →
    ∃ start read data, Delivered limit disk begins path file start read data

/-- A file that was met when the path was visited, with an offset of it: the first byte, or the
end and then with a fence. -/
def Fresh (ask : FileCall → FileSystem) (calls : List LoopCall) (path : PathBuf) (inode : Inode)
    (start : ℕ) : Prop :=
  ∃ c entry, (ask c).disk.entry path = some entry ∧ entry.inode = inode ∧
    (start = 0 ∨ start = ((ask c).disk.contents inode).length ∧ .fence ∈ calls)

/-- Where cursors have begun, after a visit of a path and its calls. -/
inductive Begun (begins : PathBuf → Inode → ℕ → List (Inode × String) → Prop)
    (ask : FileCall → FileSystem) (visited : PathBuf) (calls : List LoopCall)
    (path : PathBuf) (inode : Inode) (start : ℕ) : List (Inode × String) → Prop
  | before {texts : List (Inode × String)} (h : begins path inode start texts) :
      Begun begins ask visited calls path inode start
        (texts ++ textsOf path (calls.filterMap LoopCall.text?))
  | opened (hpath : path = visited) (h : Fresh ask calls path inode start) :
      Begun begins ask visited calls path inode start
        (textsOf path (calls.filterMap LoopCall.text?))

section Table

variable {limits : SourceLimits} {limit : ℕ} {disk after : Disk} {texts : List (Inode × String)}
  {begins begins' : PathBuf → Inode → ℕ → List (Inode × String) → Prop}
  {cursors cursors' : Cursors} {path visited : PathBuf} {file : OpenFile}
  {ask : FileCall → FileSystem} {order : PathOrder} {root : PathBuf} {created : Bool}
  {source : EventSource} {calls more : List LoopCall} {inode : Inode} {start : ℕ}

theorem Fresh.mono (h : Fresh ask calls path inode start) (hsub : calls ⊆ more) :
    Fresh ask more path inode start := by
  obtain ⟨c, entry, hentry, hinode, hstart⟩ := h
  exact ⟨c, entry, hentry, hinode, hstart.imp id (And.imp id fun hfence => hsub hfence)⟩

namespace Begun

/-- What the visit read under a path was read since. -/
theorem suffix (h : Begun begins ask visited calls path inode start texts) :
    textsOf path (calls.filterMap LoopCall.text?) <:+ texts := by
  cases h with
  | before => exact List.suffix_append _ _
  | opened => exact List.suffix_refl _

theorem of_no_texts (hread : calls.filterMap LoopCall.text? = [])
    (h : begins path inode start texts) : Begun begins ask visited calls path inode start texts := by
  have hbegun : Begun begins ask visited calls path inode start _ := .before h
  simpa [hread] using hbegun

/-- A visit that goes on, after calls that have read nothing. -/
theorem append (hread : calls.filterMap LoopCall.text? = [])
    (h : Begun (Begun begins ask visited calls) ask visited more path inode start texts) :
    Begun begins ask visited (calls ++ more) path inode start texts := by
  have htexts : (calls ++ more).filterMap LoopCall.text? = more.filterMap LoopCall.text? := by
    rw [List.filterMap_append, hread, List.nil_append]
  cases h with
  | before h =>
    rw [← htexts]
    cases h with
    | before h =>
      rw [hread, textsOf_nil, List.append_nil]
      exact .before h
    | opened hpath h =>
      rw [hread, textsOf_nil, List.nil_append]
      exact .opened hpath (h.mono (List.subset_append_left _ _))
  | opened hpath h =>
    rw [← htexts]
    exact .opened hpath (h.mono (List.subset_append_right _ _))

end Begun

theorem Intake.mono (h : Intake limit disk begins cursors) (hgrows : disk.Grows after)
    (hsub : ∀ path file, cursors'.lookup path = some file → cursors.lookup path = some file)
    (hbegins : ∀ path file start texts, cursors'.lookup path = some file →
      begins path file.inode start texts → begins' path file.inode start texts) :
    Intake limit after begins' cursors' := by
  intro path file hfile
  obtain ⟨start, read, data, hd⟩ := h path file (hsub path file hfile)
  exact ⟨start, read, data, hd.tracks.grow (hgrows _), hbegins path file start _ hfile hd.begun⟩

theorem Intake.erase (h : Intake limit disk begins cursors) (hgrows : disk.Grows after)
    (hbegins : ∀ path inode start texts, begins path inode start texts →
      begins' path inode start texts) : Intake limit after begins' (cursors.erase path) := by
  refine h.mono hgrows (fun p f hf => ?_) fun p f start texts _ => hbegins p f.inode start texts
  rw [HashMap.lookup_erase_ite] at hf
  split_ifs at hf
  exact hf

theorem Intake.insert (h : Intake limit disk begins cursors)
    (hfile : ∃ start read data, Delivered limit disk begins path file start read data) :
    Intake limit disk begins (cursors.insert path file) := by
  intro other found hfound
  rw [HashMap.lookup_insert_ite] at hfound
  split_ifs at hfound with heq
  · obtain rfl := Option.some.inj hfound
    exact heq ▸ hfile
  · exact h other found hfound

/-- A cursor that was just opened. -/
theorem delivered_openCursor {c : FileCall} {fromEnd : Bool}
    (h : openCursor limits (ask c) path fromEnd = .ok file) (hgrows : (ask c).disk.Grows disk)
    (hend : fromEnd = true → .fence ∈ calls) (hread : calls.filterMap LoopCall.text? = []) :
    ∃ start read data,
      Delivered limits.recordBytes disk (Begun begins ask path calls) path file start read data := by
  unfold openCursor OpenFile.openPath at h
  cases hentry : (ask c).disk.entry path with
  | none => simp [hentry, Except.map] at h
  | some entry =>
    cases hopens : (ask c).opens path with
    | error message => simp [hentry, hopens, bind, Except.bind, Except.map] at h
    | ok =>
      simp only [hentry, hopens, bind, Except.bind, pure, Except.pure, Except.map,
        Except.ok.injEq] at h
      subst h
      have hle : (if fromEnd then ((ask c).disk.contents entry.inode).length else 0) ≤
          ((ask c).disk.contents entry.inode).length := by
        split_ifs <;> omega
      refine ⟨_, [], [], (tracks_openAt _ _ hle).grow (hgrows entry.inode), ?_⟩
      have hfresh : Fresh ask calls path entry.inode
          (if fromEnd then ((ask c).disk.contents entry.inode).length else 0) := by
        refine ⟨c, entry, hentry, rfl, ?_⟩
        cases fromEnd with
        | false => exact .inl rfl
        | true => exact .inr ⟨rfl, hend rfl⟩
      have hbegun : Begun begins ask path calls path entry.inode _ _ := .opened rfl hfresh
      simpa [hread] using hbegun

/-! The calls of a visit, but for the read, only fence. -/

theorem filterMap_text?_fences (h : ∀ c ∈ calls, c = .fence) :
    calls.filterMap LoopCall.text? = [] := by
  rw [List.filterMap_eq_nil_iff]
  intro c hc
  rw [h c hc]
  rfl

/-- Some cursors are dropped: with a fence among the calls, or read to the end. -/
structure Pruned (ask : FileCall → FileSystem) (calls : List LoopCall) (before after : Cursors) :
    Prop where
  sub : ∀ path file, after.lookup path = some file → before.lookup path = some file
  dropped : ∀ path file, before.lookup path = some file → after.lookup path = some file ∨
    .fence ∈ calls ∨ ∃ c, file.drained (ask c) = true

theorem Pruned.refl (ask : FileCall → FileSystem) (calls : List LoopCall) (cursors : Cursors) :
    Pruned ask calls cursors cursors := ⟨fun _ _ => id, fun _ _ => .inl⟩

theorem Pruned.trans {more : List LoopCall} {last : Cursors} (h : Pruned ask calls cursors cursors')
    (h' : Pruned ask more cursors' last) : Pruned ask (calls ++ more) cursors last := by
  refine ⟨fun p f hf => h.sub p f (h'.sub p f hf), fun p f hf => ?_⟩
  obtain hkept | hfence | hdrained := h.dropped p f hf
  · obtain hkept | hfence | hdrained := h'.dropped p f hkept
    · exact .inl hkept
    · exact .inr (.inl (List.mem_append_right _ hfence))
    · exact .inr (.inr hdrained)
  · exact .inr (.inl (List.mem_append_left _ hfence))
  · exact .inr (.inr hdrained)

theorem Pruned.mono {more : List LoopCall} (h : Pruned ask calls cursors cursors')
    (hsub : calls ⊆ more) : Pruned ask more cursors cursors' :=
  ⟨h.sub, fun p f hf => (h.dropped p f hf).imp id (Or.imp (fun hfence => hsub hfence) id)⟩

namespace Cursors

theorem pruned_empty (ask : FileCall → FileSystem) (cursors : Cursors) (h : .fence ∈ calls) :
    Pruned ask calls cursors ∅ :=
  ⟨fun p f hf => by simp at hf, fun _ _ _ => .inr (.inl h)⟩

theorem pruned_retainExisting (ask : FileCall → FileSystem) (calls : List LoopCall)
    (self : Cursors) :
    Pruned ask calls self (self.retainExisting fun known => ask (.retain known)) := by
  refine ⟨fun p f hf => (lookup_retainExisting.mp hf).1, fun p f hf => ?_⟩
  by_cases hdrained : f.drained (ask (.retain p)) = true
  · exact .inr (.inr ⟨_, hdrained⟩)
  · refine .inl (lookup_retainExisting.mpr ⟨hf, ?_⟩)
    simp [hdrained]

theorem pruned_evictRetiredCursor (ask : FileCall → FileSystem) (calls : List LoopCall)
    (self : Cursors) (order : PathOrder) (root incoming : PathBuf) :
    Pruned ask calls self
      (self.evictRetiredCursor order (fun known => ask (.evict known)) root incoming).2 := by
  refine ⟨fun p f hf => lookup_evictRetiredCursor hf, fun p f hf => ?_⟩
  obtain ⟨heq, -⟩ | ⟨newPosition, position, gone, -, heq, hgone, -⟩ :=
    evictRetiredCursor_cases self order (fun known => ask (.evict known)) root incoming
  · rw [heq]
    exact .inl hf
  · rw [heq, HashMap.lookup_erase_ite]
    split_ifs with hp
    · obtain ⟨file, hfile, hdrained, -⟩ := hgone.quiet
      rw [← hp, hf, Option.some.injEq] at hfile
      exact .inr (.inr ⟨_, hfile ▸ hdrained⟩)
    · exact .inl hf

theorem pruned_makeRoom (self : Cursors) (limits : SourceLimits) (ask : FileCall → FileSystem)
    (path : PathBuf) (order : PathOrder) (root : PathBuf) :
    Pruned ask (self.makeRoom limits ask path order root).2 self
      (self.makeRoom limits ask path order root).1 := by
  have hretain := pruned_retainExisting ask [] self
  have hevict := hretain.trans (pruned_evictRetiredCursor ask [] _ order root path)
  simp only [makeRoom]
  by_cases hmany : limits.dirtyFiles ≤
      (self.retainExisting fun known => ask (.retain known)).keys.card
  · rw [if_pos hmany]
    split_ifs
    · exact pruned_empty ask self (by simp)
    · exact hevict
  · rw [if_neg hmany, if_neg hmany]
    exact hretain

theorem makeRoom_fences (self : Cursors) (limits : SourceLimits) (ask : FileCall → FileSystem)
    (path : PathBuf) (order : PathOrder) (root : PathBuf) :
    ∀ c ∈ (self.makeRoom limits ask path order root).2, c = .fence := by
  simp only [makeRoom]
  split_ifs <;> simp

theorem removeMissing_fences (self : Cursors) (ask : FileCall → FileSystem) (path : PathBuf) :
    ∀ c ∈ (self.removeMissing ask path).2, c = .fence := by
  unfold removeMissing
  by_cases hfile : (ask .isFile).isFile path = true
  · simp [hfile]
  · rw [if_neg hfile]
    dsimp only
    split_ifs <;> simp

theorem pruned_removeMissing (self : Cursors) (ask : FileCall → FileSystem) (path : PathBuf) :
    Pruned ask (self.removeMissing ask path).2 self (self.removeMissing ask path).1 := by
  unfold removeMissing
  by_cases hfile : (ask .isFile).isFile path = true
  · rw [if_pos hfile]
    exact .refl ask [] self
  · rw [if_neg hfile]
    refine ⟨fun p f hf => ?_, fun p f hf => ?_⟩
    · rw [HashMap.lookup_erase_ite] at hf
      split_ifs at hf
      exact hf
    · rw [HashMap.lookup_erase_ite]
      by_cases hp : p = path
      · subst hp
        cases hdrained : f.drained (ask .removed) with
        | true => exact .inr (.inr ⟨_, hdrained⟩)
        | false => simp [hf, hdrained]
      · simp [hp, hf]

/-- What opening a cursor does: others may be dropped, and the new one is at the first byte of
its file, or fenced. -/
inductive Attached (limits : SourceLimits) (ask : FileCall → FileSystem) (path : PathBuf)
    (before : Cursors) : Cursors → List LoopCall → Prop
  | known (h : path ∈ before) : Attached limits ask path before before []
  | opened {kept : Cursors} {calls : List LoopCall} {file : OpenFile} (fromEnd : Bool)
    (hnew : path ∉ before) (hkept : Pruned ask calls before kept) (hcalls : ∀ c ∈ calls, c = .fence)
    (hopen : openCursor limits (ask .openPath) path fromEnd = .ok file)
    (hend : fromEnd = true → .fence ∈ calls)
    (hroom : kept.keys.card < limits.dirtyFiles ∨ kept = ∅) :
    Attached limits ask path before (kept.insert path file) calls
  | refused {kept : Cursors} {calls : List LoopCall} (hnew : path ∉ before)
    (hkept : Pruned ask calls before kept) (hcalls : ∀ c ∈ calls, c = .fence)
    (hfence : .fence ∈ calls) : Attached limits ask path before kept calls

theorem makeRoom_room (self : Cursors) (limits : SourceLimits) (ask : FileCall → FileSystem)
    (path : PathBuf) (order : PathOrder) (root : PathBuf) :
    (self.makeRoom limits ask path order root).1.keys.card < limits.dirtyFiles ∨
      (self.makeRoom limits ask path order root).1 = ∅ := by
  simp only [makeRoom]
  generalize (if limits.dirtyFiles ≤ _ then _ else _ : Cursors) = kept
  split_ifs with hfull
  · exact .inr rfl
  · exact .inl (Nat.lt_of_not_le hfull)

theorem attach_cases (self : Cursors) (limits : SourceLimits) (ask : FileCall → FileSystem)
    (path : PathBuf) (order : PathOrder) (root : PathBuf) (created : Bool) :
    Attached limits ask path self (self.attach limits ask path order root created).1
      (self.attach limits ask path order root created).2 := by
  have hkept := pruned_makeRoom self limits ask path order root
  have hroom := makeRoom_room self limits ask path order root
  have hfences := makeRoom_fences self limits ask path order root
  by_cases hknown : path ∈ self
  · simp only [attach, hknown, if_true]
    exact .known hknown
  · simp only [attach, hknown, if_false]
    generalize self.makeRoom limits ask path order root = out at hkept hroom hfences ⊢
    obtain ⟨kept, full⟩ := out
    dsimp only at hkept hroom hfences ⊢
    generalize (!created && !decide (∃ known ∈ self.keys, known.startsWith root = true)) = fromEnd
    cases hopen : openCursor limits (ask .openPath) path fromEnd with
    | ok file =>
      refine .opened fromEnd hknown (hkept.mono (List.subset_append_left _ _)) ?_ hopen ?_ hroom
      · intro c hc
        rw [List.mem_append] at hc
        obtain hc | hc := hc
        · exact hfences c hc
        · split_ifs at hc <;> simp_all
      · intro hend
        simp [hend]
    | error message =>
      refine .refused hknown (hkept.mono ?_) ?_ (by simp)
      · intro c hc
        simp [hc]
      · intro c hc
        simp only [List.mem_append, List.mem_singleton] at hc
        obtain (hc | hc) | hc := hc
        · exact hfences c hc
        · split_ifs at hc <;> simp_all
        · exact hc

/-- What a turn of a path does. -/
inductive Turned (limits : SourceLimits) (ask : FileCall → FileSystem) (path : PathBuf)
    (source : EventSource) (before : Cursors) : Cursors → List LoopCall → Prop
  | absent (h : before.lookup path = none) : Turned limits ask path source before before []
  | read {file next : OpenFile} {data : String} {more : Bool} {n : ℕ}
    (hfile : before.lookup path = some file)
    (hread : file.readTurn (ask .read) path limits.turnBytes = (next, .ok (data, more, n))) :
    Turned limits ask path source before (before.insert path next)
      (.processData ⟨path, file.inode, source, data⟩ :: if more then [.requeue path] else [])
  | reopened {file : OpenFile} (h : path ∈ before)
    (hopen : openCursor limits (ask .reopen) path true = .ok file) :
    Turned limits ask path source before ((before.erase path).insert path file) [.fence]
  | failed (h : path ∈ before) : Turned limits ask path source before (before.erase path) [.fence]

theorem readPath_cases (self : Cursors) (limits : SourceLimits) (ask : FileCall → FileSystem)
    (path : PathBuf) (source : EventSource) :
    Turned limits ask path source self (self.readPath limits ask path source).1
      (self.readPath limits ask path source).2 := by
  unfold readPath
  cases hfile : self.lookup path with
  | none => exact .absent hfile
  | some file =>
    have hmem : path ∈ self := Finmap.mem_of_lookup_eq_some hfile
    dsimp only
    rcases hread : file.readTurn (ask .read) path limits.turnBytes with ⟨next, e | ⟨data, more, n⟩⟩
    · cases hopen : openCursor limits (ask .reopen) path true with
      | ok file => exact .reopened hmem hopen
      | error message => exact .failed hmem
    · exact .read hfile hread

end Cursors

/-! ### A visit -/

theorem textsOf_singleton (path : PathBuf) (text : SourceText) :
    textsOf path [text] = if text.path = path then [(text.inode, text.data)] else [] := by
  by_cases h : text.path = path <;> simp [textsOf, h]

/-- One more text read by a cursor. -/
theorem Delivered.read {next : OpenFile} {text : String} {more : Bool} {n start budget : ℕ}
    {read : List UInt8} {data : List String} {fs : FileSystem}
    (h : Delivered limit fs.disk begins path file start read data)
    (hread : file.readTurn fs path budget = (next, .ok (text, more, n)))
    (hbegins : begins' path file.inode start (data.map (Prod.mk file.inode) ++
      [(file.inode, text)])) :
    Delivered limit fs.disk begins' path next start
      (read ++ file.cursor.chunk (file.view fs path) budget) (data ++ [text]) := by
  rw [OpenFile.readTurn, Prod.mk.injEq] at hread
  obtain ⟨rfl, hout⟩ := hread
  have hquiet := quiet_of_readTurn (List.prefix_refl (fs.disk.contents file.inode)) hout
  exact ⟨h.tracks.readTurn hquiet hout, by simpa using hbegins⟩

theorem Cursors.Turned.text_eq {next : OpenFile} {data : String} (more : Bool) :
    (LoopCall.processData ⟨path, next.inode, source, data⟩ ::
      if more then [.requeue path] else []).filterMap LoopCall.text? =
        [⟨path, next.inode, source, data⟩] := by
  cases more <;> simp [LoopCall.text?]

theorem Intake.readPath (h : Intake limits.recordBytes (ask .read).disk begins cursors)
    (hgrows : (ask .read).disk.Grows after) (hreopen : (ask .reopen).disk.Grows after)
    (hturned : Cursors.Turned limits ask path source cursors cursors' calls) :
    Intake limits.recordBytes after (Begun begins ask path calls) cursors' := by
  cases hturned with
  | absent hnone =>
    exact h.mono hgrows (fun _ _ => id) fun _ _ _ _ _ => .of_no_texts rfl
  | @read file next data more n hfile hread =>
    intro other found hfound
    rw [HashMap.lookup_insert_ite] at hfound
    split_ifs at hfound with heq
    · subst heq
      obtain rfl := Option.some.inj hfound
      obtain ⟨start, read, delivered, hd⟩ := h other file hfile
      have hnext := hd.read hread <| by
        have hbegun : Begun begins ask other (.processData ⟨other, file.inode, source, data⟩ ::
            if more then [.requeue other] else []) other file.inode start _ := .before hd.begun
        rwa [Cursors.Turned.text_eq, textsOf_singleton, if_pos rfl] at hbegun
      exact ⟨_, _, _, hnext.tracks.grow (hgrows _), hnext.begun⟩
    · obtain ⟨start, read, delivered, hd⟩ := h other found hfound
      refine ⟨start, read, delivered, hd.tracks.grow (hgrows _), ?_⟩
      have hbegun : Begun begins ask path (.processData ⟨path, file.inode, source, data⟩ ::
          if more then [.requeue path] else []) other found.inode start _ := .before hd.begun
      rwa [Cursors.Turned.text_eq, textsOf_singleton, if_neg (Ne.symm heq),
        List.append_nil] at hbegun
  | @reopened file hmem hopen =>
    exact (h.erase hgrows fun _ _ _ _ => .of_no_texts rfl).insert
      (delivered_openCursor hopen hreopen (by simp) rfl)
  | failed hmem => exact h.erase hgrows fun _ _ _ _ => .of_no_texts rfl

theorem Intake.attach (h : Intake limits.recordBytes disk begins cursors)
    (hgrows : disk.Grows after) (hopened : (ask .openPath).disk.Grows after)
    (hattached : Cursors.Attached limits ask path cursors cursors' calls) :
    Intake limits.recordBytes after (Begun begins ask path calls) cursors' := by
  cases hattached with
  | known hknown => exact h.mono hgrows (fun _ _ => id) fun _ _ _ _ _ => .of_no_texts rfl
  | opened fromEnd hnew hkept hcalls hopen hend hroom =>
    have hread := filterMap_text?_fences hcalls
    exact (h.mono hgrows hkept.sub fun _ _ _ _ _ => .of_no_texts hread).insert
      (delivered_openCursor hopen hopened hend hread)
  | refused hnew hkept hcalls hfence =>
    exact h.mono hgrows hkept.sub fun _ _ _ _ _ => .of_no_texts (filterMap_text?_fences hcalls)

/-- What a visit of a path does. -/
inductive Visited (limits : SourceLimits) (ask : FileCall → FileSystem) (path : PathBuf)
    (roots : List (PathBuf × EventSource)) (before : Cursors) : Cursors → List LoopCall → Prop
  | foreign : Visited limits ask path roots before before []
  | gone {kept : Cursors} {calls : List LoopCall} (hkept : Pruned ask calls before kept)
    (hcalls : ∀ c ∈ calls, c = .fence) : Visited limits ask path roots before kept calls
  | turned {kept attached after : Cursors} {removed opened read : List LoopCall} {root : PathBuf}
    {source : EventSource}
    (hroot : roots.find? (fun e => path.startsWith e.1) = some (root, source))
    (hkept : Pruned ask removed before kept) (hremoved : ∀ c ∈ removed, c = .fence)
    (hattached : Cursors.Attached limits ask path kept attached opened)
    (hturned : Cursors.Turned limits ask path source attached after read) :
    Visited limits ask path roots before after (removed ++ opened ++ read)

theorem Cursors.visitPath_cases (self : Cursors) (limits : SourceLimits)
    (ask : FileCall → FileSystem) (path : PathBuf) (order : PathOrder)
    (roots : List (PathBuf × EventSource)) (created : Bool) :
    Visited limits ask path roots self (self.visitPath limits ask path order roots created).1
      (self.visitPath limits ask path order roots created).2 := by
  unfold visitPath
  cases hroot : roots.find? fun e => path.startsWith e.1 with
  | none => exact .foreign
  | some found =>
    obtain ⟨root, source⟩ := found
    have hkept := pruned_removeMissing self ask path
    have hremoved := removeMissing_fences self ask path
    dsimp only
    split_ifs
    · exact .turned hroot hkept hremoved (attach_cases _ limits ask path order root created)
        (readPath_cases _ limits ask path source)
    · exact .gone hkept hremoved

/-- The file of a cursor is still followed, from no earlier byte. -/
def Carried (cursors : Cursors) (path : PathBuf) (file : OpenFile) : Prop :=
  ∃ next, cursors.lookup path = some next ∧ next.inode = file.inode ∧
    file.cursor.offset ≤ next.cursor.offset

theorem Carried.of_lookup (h : cursors.lookup path = some file) : Carried cursors path file :=
  ⟨file, h, rfl, le_rfl⟩

theorem Cursors.Attached.dropped (h : Cursors.Attached limits ask path cursors cursors' calls)
    {known : PathBuf} (hfile : cursors.lookup known = some file) :
    cursors'.lookup known = some file ∨ .fence ∈ calls ∨ ∃ c, file.drained (ask c) = true := by
  cases h with
  | known => exact .inl hfile
  | opened fromEnd hnew hkept =>
    have hne : known ≠ path := fun heq => hnew (heq ▸ Finmap.mem_of_lookup_eq_some hfile)
    rw [HashMap.lookup_insert_ite, if_neg hne]
    exact hkept.dropped known file hfile
  | refused hnew hkept => exact hkept.dropped known file hfile

theorem Cursors.Turned.carried (h : Cursors.Turned limits ask path source cursors cursors' calls)
    {known : PathBuf} (hfile : cursors.lookup known = some file) :
    Carried cursors' known file ∨ .fence ∈ calls := by
  cases h with
  | absent => exact .inl (.of_lookup hfile)
  | @read file next data more n hpath hread =>
    left
    by_cases heq : known = path
    · subst heq
      obtain rfl := Option.some.inj (hpath.symm.trans hfile)
      rw [OpenFile.readTurn, Prod.mk.injEq] at hread
      obtain ⟨rfl, -⟩ := hread
      exact ⟨_, Finmap.lookup_insert _, rfl, offset_le_readTurn _ _ _⟩
    · exact .of_lookup (by simpa [HashMap.lookup_insert_ite, heq] using hfile)
  | reopened => simp
  | failed => simp

theorem Cursors.Attached.fences (h : Cursors.Attached limits ask path cursors cursors' calls) :
    ∀ c ∈ calls, c = .fence := by
  cases h with
  | known => simp
  | opened _ _ _ hcalls => exact hcalls
  | refused _ _ hcalls => exact hcalls

variable {roots : List (PathBuf × EventSource)}

theorem Intake.visitPath (h : Intake limits.recordBytes disk begins cursors)
    (hasked : HlListen.Asked Disk.Grows disk ask after)
    (hvisited : Visited limits ask path roots cursors cursors' calls) :
    Intake limits.recordBytes after (Begun begins ask path calls) cursors' := by
  have hafter : disk.Grows after := (hasked.since .read).trans (hasked.last .read)
  cases hvisited with
  | foreign => exact h.mono hafter (fun _ _ => id) fun _ _ _ _ _ => .of_no_texts rfl
  | gone hkept hcalls =>
    exact h.mono hafter hkept.sub fun _ _ _ _ _ => .of_no_texts (filterMap_text?_fences hcalls)
  | @turned kept attached _ removed opened read root source hroot hkept hremoved hattached
      hturned =>
    have hnone := filterMap_text?_fences hremoved
    have hbefore : Intake limits.recordBytes (ask .read).disk (Begun begins ask path removed) kept :=
      h.mono (hasked.since .read) hkept.sub fun _ _ _ _ _ => .of_no_texts hnone
    have hattach := hbefore.attach (.refl _) (hasked.between .openPath .read (by decide)) hattached
    have hread := hattach.readPath (hasked.last .read) (hasked.last .reopen) hturned
    refine hread.mono (.refl _) (fun _ _ => id) fun p file start texts _ hbegun => ?_
    rw [List.append_assoc]
    exact (hbegun.append (filterMap_text?_fences hattached.fences)).append hnone

/-- No cursor goes without a fence before its file is read to the end. -/
theorem carried_visitPath (hvisited : Visited limits ask path roots cursors cursors' calls)
    {known : PathBuf} (hfile : cursors.lookup known = some file) :
    Carried cursors' known file ∨ .fence ∈ calls ∨ ∃ c, file.drained (ask c) = true := by
  cases hvisited with
  | foreign => exact .inl (.of_lookup hfile)
  | gone hkept hcalls => exact (hkept.dropped known file hfile).imp .of_lookup id
  | turned hroot hkept hremoved hattached hturned =>
    simp only [List.mem_append]
    obtain hmid | hfence | hdrained := hkept.dropped known file hfile
    · obtain hlate | hfence | hdrained := hattached.dropped hmid
      · obtain hcarried | hfence := hturned.carried hlate
        · exact .inl hcarried
        · exact .inr (.inl (.inr hfence))
      · exact .inr (.inl (.inl (.inr hfence)))
      · exact .inr (.inr hdrained)
    · exact .inr (.inl (.inl (.inl hfence)))
    · exact .inr (.inr hdrained)

/-- What a visit reads, it reads by the cursor of the path that it leaves. -/
theorem file_of_visited (hvisited : Visited limits ask path roots cursors cursors' calls)
    {text : SourceText} (htext : text ∈ calls.filterMap LoopCall.text?) :
    (∃ root, roots.find? (fun e => text.path.startsWith e.1) = some (root, text.source)) ∧
      ∃ file, cursors'.lookup text.path = some file ∧ file.inode = text.inode := by
  cases hvisited with
  | foreign => simp at htext
  | gone hkept hcalls => simp [filterMap_text?_fences hcalls] at htext
  | @turned kept attached _ removed opened read root source hroot hkept hremoved hattached
      hturned =>
    rw [List.filterMap_append, List.filterMap_append, filterMap_text?_fences hremoved,
      filterMap_text?_fences hattached.fences] at htext
    cases hturned with
    | absent => simp at htext
    | @read file next data more n hfile hread =>
      rw [Cursors.Turned.text_eq] at htext
      simp only [List.nil_append, List.mem_singleton] at htext
      subst htext
      rw [OpenFile.readTurn, Prod.mk.injEq] at hread
      obtain ⟨rfl, -⟩ := hread
      exact ⟨⟨root, hroot⟩, _, Finmap.lookup_insert _, rfl⟩
    | reopened => simp [LoopCall.text?] at htext
    | failed => simp [LoopCall.text?] at htext

/-- The text is a number of whole records of its file, from an offset where one was opened. -/
structure WholeLines (disk : Disk) (roots : List (PathBuf × EventSource))
    (begins : SourceText → ℕ → Prop) (text : SourceText) : Prop where
  source : ∃ root, roots.find? (fun e => text.path.startsWith e.1) = some (root, text.source)
  whole : rest newline [] (Utf8.bytes text.data) = []
  lines : ∃ start, begins text start ∧
    recordsOf text.data ⊆ records newline [] ((disk.contents text.inode).drop start)

theorem WholeLines.mono {opens opens' : SourceText → ℕ → Prop} {text : SourceText}
    (h : WholeLines disk roots opens text) (hgrows : disk.Grows after)
    (hopens : ∀ start, opens text start → opens' text start) :
    WholeLines after roots opens' text := by
  obtain ⟨start, hstart, hlines⟩ := h.lines
  obtain ⟨more, hmore⟩ := (hgrows text.inode).drop start
  refine ⟨h.source, h.whole, start, hopens start hstart, fun record hrecord => ?_⟩
  rw [← hmore, records_append]
  exact List.mem_append_left _ (hlines hrecord)

end Table

/-! ### The loop -/

namespace HlListen

open OrderBookListener

variable {serde : SerdeJson} {changes : Disk → Disk → Prop} {s s' : HlListen}
  {out more : List Happening}

/-- The texts read. -/
def readBy (out : List Happening) : List SourceText :=
  out.filterMap fun
    | .read text => some text
    | _ => none

@[simp] theorem readBy_append (out more : List Happening) :
    readBy (out ++ more) = readBy out ++ readBy more := List.filterMap_append

@[simp] theorem readBy_woke (next : Option PathBuf) (texts : List SourceText) :
    readBy (.woke next :: texts.map .read) = texts := by
  simp [readBy, List.filterMap_map]

/-- The loop has fenced the stream, or is about to. -/
def Fenced (out : List Happening) (s : HlListen) : Prop := .fenced ∈ out ∨ .fence ∈ s.calls

/-- What a wake does to the cursors, and what it has still to call. -/
structure Woken (s : HlListen) (ask : FileCall → FileSystem) (s' : HlListen) (left : Cursors)
    (lost visited : List LoopCall) : Prop where
  kept : Pruned ask lost s.cursors left
  fences : ∀ c ∈ lost, c = .fence
  visit : (s'.cursors = left ∧ visited = []) ∨ ∃ path, s.next.map Prod.fst = some path ∧
    Visited s.limits ask path s.roots left s'.cursors visited
  calls : s'.calls = lost ++ visited ++ [.wakeIfDirty]

theorem wakeBranch_woken (s : HlListen) (order : PathOrder) (ask : FileCall → FileSystem) :
    ∃ left lost visited, Woken s ask (s.wakeBranch order ask) left lost visited := by
  obtain ⟨⟨left, lost⟩, hlost⟩ : ∃ e : Cursors × List LoopCall,
      e = if s.dirty.overflow then (∅, [.fence]) else (s.cursors, []) := ⟨_, rfl⟩
  have hkept : Pruned ask lost s.cursors left ∧ ∀ c ∈ lost, c = .fence := by
    split_ifs at hlost
    · obtain ⟨rfl, rfl⟩ := Prod.mk.inj hlost
      exact ⟨Cursors.pruned_empty ask s.cursors (by simp), by simp⟩
    · obtain ⟨rfl, rfl⟩ := Prod.mk.inj hlost
      exact ⟨.refl ask [] s.cursors, by simp⟩
  rw [wakeBranch_eq s order ask hlost]
  refine ⟨left, lost, _, hkept.1, hkept.2, ?_, rfl⟩
  dsimp only
  unfold visitNext
  cases s.next with
  | none => exact .inl ⟨rfl, rfl⟩
  | some found =>
    exact .inr ⟨found.1, rfl, left.visitPath_cases s.limits ask _ order s.roots found.2⟩

/-! What a step is for the reader. -/

/-- The reader's part of the loop. -/
structure SameReader (s s' : HlListen) : Prop where
  limits : s'.limits = s.limits
  roots : s'.roots = s.roots
  cursors : s'.cursors = s.cursors
  disk : s'.disk = s.disk

inductive ReaderStep (changes : Disk → Disk → Prop) (s : HlListen) (out : List Happening)
    (s' : HlListen) : Prop
  | kept (h : SameReader s s') (hcalls : s'.calls = s.calls) (hread : readBy out = [])
  | files (hlimits : s'.limits = s.limits) (hroots : s'.roots = s.roots)
    (hcursors : s'.cursors = s.cursors) (hcalls : s'.calls = s.calls)
    (hdisk : changes s.disk s'.disk) (hread : readBy out = [])
  | branch (h : SameReader s s') (hidle : s.calls = [])
    (hcalls : s'.calls.filterMap LoopCall.text? = []) (hread : readBy out = [])
  | call {c : LoopCall} (h : SameReader s s') (hcalls : s.calls = c :: s'.calls)
    (hfenced : c = .fence → .fenced ∈ out) (hread : readBy out = [])
  | wake {ask : FileCall → FileSystem} {left : Cursors} {lost visited : List LoopCall}
    (hlimits : s'.limits = s.limits) (hroots : s'.roots = s.roots) (hidle : s.calls = [])
    (hwoken : Woken s ask s' left lost visited) (hasked : Asked changes s.disk ask s'.disk)
    (hwoke : .woke (s.next.map Prod.fst) ∈ out)
    (hread : readBy out = s'.calls.filterMap LoopCall.text?)
  | maintenance {ask : FileCall → FileSystem} (hlimits : s'.limits = s.limits)
    (hroots : s'.roots = s.roots) (hidle : s.calls = [])
    (hkept : Pruned ask s'.calls s.cursors s'.cursors) (hcalls : s'.calls = [.maintain])
    (hasked : Asked changes s.disk ask s'.disk) (hread : readBy out = [])

/-- A call takes itself off what is left and touches no cursor. -/
theorem call_reader {clock : ℕ → Instant} {now : Instant} {c : LoopCall} {rest : List LoopCall}
    (h : call serde clock now { s with calls := rest } c = some s') :
    SameReader s s' ∧ s'.calls = rest := by
  cases c with
  | fence => cases h; exact ⟨⟨rfl, rfl, rfl, rfl⟩, rfl⟩
  | processData text =>
    simp only [call, Option.map_eq_some_iff] at h
    obtain ⟨listener, -, rfl⟩ := h
    exact ⟨⟨rfl, rfl, rfl, rfl⟩, rfl⟩
  | requeue path => cases h; exact ⟨⟨rfl, rfl, rfl, rfl⟩, rfl⟩
  | wakeIfDirty => cases h; exact ⟨⟨rfl, rfl, rfl, rfl⟩, rfl⟩
  | maintain =>
    simp only [call] at h
    split_ifs at h <;> cases h <;> exact ⟨⟨rfl, rfl, rfl, rfl⟩, rfl⟩

theorem step_reader (hstep : Step serde changes s out s') : ReaderStep changes s out s' := by
  cases hstep with
  | files disk hdisk => exact .files rfl rfl rfl rfl hdisk rfl
  | watch n =>
    obtain ⟨dirty, wake, hwatch⟩ := watch_frame s n
    exact hwatch ▸ .kept ⟨rfl, rfl, rfl, rfl⟩ rfl rfl
  | wake order ask disk hidle hwake hasked =>
    obtain ⟨left, lost, visited, hwoken⟩ := wakeBranch_woken s order ask
    exact .wake rfl rfl hidle ⟨hwoken.kept, hwoken.fences, hwoken.visit, hwoken.calls⟩ hasked
      List.mem_cons_self (by simp)
  | maintenance order ask disk hidle hasked =>
    exact .maintenance rfl rfl hidle (Cursors.pruned_retainExisting ask _ s.cursors) rfl hasked rfl
  | @join before after outcome now later hidle htask =>
    refine .branch ⟨rfl, rfl, rfl, rfl⟩ hidle ?_ rfl
    simp only [joinBranch]
    split_ifs <;> rfl
  | tick now hidle =>
    refine .branch ⟨rfl, rfl, rfl, rfl⟩ hidle ?_ rfl
    simp [tickBranch, spawn, hidle]
  | @call _ c rest clock now hcalls hnow hcall =>
    obtain ⟨hreader, hrest⟩ := call_reader hcall
    refine .call hreader (hcalls.trans (by rw [hrest])) ?_ ?_
    · rintro rfl
      simp [noted]
    · cases c <;> simp only [noted] <;> try rfl
      split_ifs <;> rfl
  | request => exact .kept ⟨rfl, rfl, rfl, rfl⟩ rfl rfl
  | answer => exact .kept ⟨rfl, rfl, rfl, rfl⟩ rfl rfl
  | passed => exact .kept ⟨rfl, rfl, rfl, rfl⟩ rfl rfl
  | requestFailed => exact .kept ⟨rfl, rfl, rfl, rfl⟩ rfl rfl
  | parseFailed => exact .kept ⟨rfl, rfl, rfl, rfl⟩ rfl rfl
  | finish => exact .kept ⟨rfl, rfl, rfl, rfl⟩ rfl rfl
  | abort => exact .kept ⟨rfl, rfl, rfl, rfl⟩ rfl rfl
  | views => exact .kept ⟨rfl, rfl, rfl, rfl⟩ rfl rfl

theorem ReaderStep.limits_eq (h : ReaderStep changes s out s') : s'.limits = s.limits := by
  cases h with
  | kept hsame => exact hsame.limits
  | files hlimits => exact hlimits
  | branch hsame => exact hsame.limits
  | call hsame => exact hsame.limits
  | wake hlimits => exact hlimits
  | maintenance hlimits => exact hlimits

theorem ReaderStep.grows (h : ReaderStep Disk.Grows s out s') : s.disk.Grows s'.disk := by
  cases h with
  | kept hsame => exact hsame.disk ▸ .refl _
  | files _ _ _ _ hdisk => exact hdisk
  | branch hsame => exact hsame.disk ▸ .refl _
  | call hsame => exact hsame.disk ▸ .refl _
  | wake _ _ _ _ hasked => exact (hasked.since .read).trans (hasked.last .read)
  | maintenance _ _ _ _ _ hasked => exact (hasked.since .read).trans (hasked.last .read)

theorem ReaderStep.fenced (h : ReaderStep changes s more s') (hf : Fenced out s) :
    Fenced (out ++ more) s' := by
  obtain hf | hf := hf
  · exact .inl (List.mem_append_left _ hf)
  cases h with
  | kept _ hcalls => exact .inr (hcalls ▸ hf)
  | files _ _ _ hcalls => exact .inr (hcalls ▸ hf)
  | call _ hcalls hfenced =>
    rw [hcalls, List.mem_cons] at hf
    obtain hnow | hlater := hf
    · exact .inl (List.mem_append_right _ (hfenced hnow.symm))
    · exact .inr hlater
  | branch _ hidle => simp [hidle] at hf
  | wake _ _ hidle => simp [hidle] at hf
  | maintenance _ _ hidle => simp [hidle] at hf

/-- A wake for the path opened a cursor of the file that the path led to: at its first byte, or
at its end and then with a fence ahead. What the wake read under the path is behind the cursor. -/
structure Opens (path : PathBuf) (inode : Inode) (start : ℕ) (s : HlListen) (out : List Happening)
    (s' : HlListen) : Prop where
  woke : .woke (some path) ∈ out
  begins : ∃ (seen : Disk) (entry : Entry), s.disk.Grows seen ∧ seen.Grows s'.disk ∧
    seen.entry path = some entry ∧ entry.inode = inode ∧
    (start = 0 ∨ start = (seen.contents inode).length ∧ .fence ∈ s'.calls)
  reads : ∃ file, s'.cursors.lookup path = some file ∧ file.inode = inode ∧
    file.cursor.offset = start + ((textsOf path (readBy out)).flatMap
      fun text => Utf8.bytes text.2).length + file.cursor.partialBytes.length

/-- A cursor of the path follows the file. -/
def Follows (path : PathBuf) (inode : Inode) (s : HlListen) : Prop :=
  ∃ file, s.cursors.lookup path = some file ∧ file.inode = inode

/-- The texts are all that was read under the path since a cursor was opened at the offset of the
file, and the path has been followed there since. -/
def ReadSince (serde : SerdeJson) (first : HlListen) (out : List Happening) (s : HlListen)
    (path : PathBuf) (inode : Inode) (start : ℕ) (texts : List (Inode × String)) : Prop :=
  ∃ since, Run.Since (Step serde Disk.Grows) first (Opens path inode start) (Follows path inode)
    out s since ∧ textsOf path (readBy since) = texts

/-- The text was read of its file since a cursor was opened at the offset, under its path. -/
def TextSince (serde : SerdeJson) (first : HlListen) (out : List Happening) (s : HlListen)
    (text : SourceText) (start : ℕ) : Prop :=
  ∃ since, Run.Since (Step serde Disk.Grows) first (Opens text.path text.inode start)
    (fun _ => True) out s since ∧ (text.inode, text.data) ∈ textsOf text.path (readBy since)

section Since

variable {first : HlListen} {path visited : PathBuf} {inode : Inode} {start : ℕ}
  {texts : List (Inode × String)} {text : SourceText} {file : OpenFile}

theorem ReadSince.later (h : ReadSince serde first out s path inode start texts)
    (hstep : Step serde Disk.Grows s more s') (hfollows : Follows path inode s') :
    ReadSince serde first (out ++ more) s' path inode start
      (texts ++ textsOf path (readBy more)) := by
  obtain ⟨since, hsince, rfl⟩ := h
  exact ⟨_, hsince.later hstep hfollows, by rw [readBy_append, textsOf_append]⟩

theorem ReadSince.textSince (h : ReadSince serde first out s text.path text.inode start texts)
    (htext : (text.inode, text.data) ∈ texts) : TextSince serde first out s text start := by
  obtain ⟨since, hsince, rfl⟩ := h
  exact ⟨since, hsince.mono fun _ _ => trivial, htext⟩

theorem TextSince.later (h : TextSince serde first out s text start)
    (hstep : Step serde Disk.Grows s more s') :
    TextSince serde first (out ++ more) s' text start := by
  obtain ⟨since, hsince, htext⟩ := h
  exact ⟨_, hsince.later hstep trivial, by simp [textsOf_append, htext]⟩

/-- Where a cursor has begun by a wake. -/
theorem readSince_of_begun {ask : FileCall → FileSystem} {calls : List LoopCall} {limit : ℕ}
    {read : List UInt8} {data : List String} (hrun : Run (Step serde Disk.Grows) first out s)
    (hstep : Step serde Disk.Grows s more s') (hasked : Asked Disk.Grows s.disk ask s'.disk)
    (hwoke : .woke (some visited) ∈ more) (hread : readBy more = calls.filterMap LoopCall.text?)
    (hcalls : calls ⊆ s'.calls) (hfile : s'.cursors.lookup path = some file)
    (hd : Delivered limit s'.disk (Begun (ReadSince serde first out s) ask visited calls) path file
      start read data) :
    ReadSince serde first (out ++ more) s' path file.inode start (data.map (Prod.mk file.inode)) := by
  obtain ⟨htracks, hbegun⟩ := hd
  have hfollows : Follows path file.inode s' := ⟨file, hfile, rfl⟩
  have hbytes : (data.map (Prod.mk file.inode)).flatMap (fun text => Utf8.bytes text.2) =
      data.flatMap Utf8.bytes := by
    simp [List.flatMap_map]
  generalize data.map (Prod.mk file.inode) = texts at hbegun hbytes
  cases hbegun with
  | before h => exact hread ▸ h.later hstep hfollows
  | opened hpath h =>
    subst hpath
    obtain ⟨c, entry, hentry, hinode, hstart⟩ := h
    rw [← hread] at hbytes ⊢
    refine ⟨more, .now hrun hstep ⟨hwoke, ⟨(ask c).disk, entry, hasked.since c, hasked.last c,
      hentry, hinode, hstart.imp id (And.imp id fun hfence => hcalls hfence)⟩,
      file, hfile, rfl, ?_⟩ hfollows, rfl⟩
    rw [hbytes, htracks.offset, ← htracks.flatMap_bytes, List.length_append, Nat.add_assoc]

end Since

/-- A text that a wake hands over is made of whole lines, from where the cursor of its file began. -/
theorem wholeLines_of_visited {first : HlListen} {ask : FileCall → FileSystem} {cursors : Cursors}
    {calls : List LoopCall} {text : SourceText} (hrun : Run (Step serde Disk.Grows) first out s)
    (hstep : Step serde Disk.Grows s more s') (hasked : Asked Disk.Grows s.disk ask s'.disk)
    (hwoke : .woke (some visited) ∈ more) (hread : readBy more = calls.filterMap LoopCall.text?)
    (hcalls : calls ⊆ s'.calls)
    (hvisited : Visited first.limits ask visited first.roots cursors s'.cursors calls)
    (hvisit : Intake first.limits.recordBytes s'.disk
      (Begun (ReadSince serde first out s) ask visited calls) s'.cursors)
    (htext : text ∈ calls.filterMap LoopCall.text?) :
    WholeLines s'.disk first.roots (TextSince serde first (out ++ more) s') text := by
  obtain ⟨hsource, file, hfile, hinode⟩ := file_of_visited hvisited htext
  obtain ⟨start, read, data, hd⟩ := hvisit _ file hfile
  have hsince := readSince_of_begun hrun hstep hasked hwoke hread hcalls hfile hd
  have hmem : (text.inode, text.data) ∈ data.map (Prod.mk file.inode) :=
    hd.begun.suffix.subset (List.mem_map.mpr ⟨text, by simp [htext], rfl⟩)
  have hdata : text.data ∈ data := by
    obtain ⟨x, hx, heq⟩ := List.mem_map.mp hmem
    exact (Prod.mk.inj heq).2 ▸ hx
  refine ⟨hsource, hd.tracks.whole _ hdata, start, ?_, ?_⟩
  · rw [hinode] at hsince hmem
    exact hsince.textSince hmem
  · exact hinode ▸ hd.tracks.records_subset hdata

/-- What holds of the reader in every run. -/
structure ReaderSound (serde : SerdeJson) (first : HlListen) (out : List Happening)
    (s : HlListen) : Prop where
  limits_eq : s.limits = first.limits
  roots_eq : s.roots = first.roots
  intake : Intake first.limits.recordBytes s.disk (ReadSince serde first out s) s.cursors
  lines : ∀ text ∈ readBy out,
    WholeLines s.disk first.roots (TextSince serde first out s) text
  pending : ∀ text ∈ s.calls.filterMap LoopCall.text?, text ∈ readBy out

section Sound

variable {limits : SourceLimits} {roots : List (PathBuf × EventSource)} {first : HlListen}

/-- A step that reads nothing. -/
theorem ReaderSound.mono (h : ReaderSound serde first out s)
    (hstep : Step serde Disk.Grows s more s') (hlimits : s'.limits = s.limits)
    (hroots : s'.roots = s.roots) (hdisk : s.disk.Grows s'.disk) (hread : readBy more = [])
    (hsub : ∀ path file, s'.cursors.lookup path = some file → s.cursors.lookup path = some file)
    (hpending : s'.calls.filterMap LoopCall.text? ⊆ s.calls.filterMap LoopCall.text?) :
    ReaderSound serde first (out ++ more) s' := by
  refine ⟨hlimits.trans h.limits_eq, hroots.trans h.roots_eq, ?_, ?_, ?_⟩
  · refine h.intake.mono hdisk hsub fun path file start texts hfile hsince => ?_
    simpa [hread] using hsince.later hstep ⟨file, hfile, rfl⟩
  · rw [readBy_append, hread, List.append_nil]
    exact fun text htext => (h.lines text htext).mono hdisk fun start hsince => hsince.later hstep
  · rw [readBy_append, hread, List.append_nil]
    exact fun text htext => h.pending text (hpending htext)

theorem ReaderSound.step (h : ReaderSound serde first out s)
    (hrun : Run (Step serde Disk.Grows) first out s) (hstep : Step serde Disk.Grows s more s') :
    ReaderSound serde first (out ++ more) s' := by
  have hreader := step_reader hstep
  have hgrows := hreader.grows
  cases hreader with
  | kept hsame hcalls hread =>
    refine h.mono hstep hsame.limits hsame.roots hgrows hread ?_ (by simp [hcalls])
    rw [hsame.cursors]
    exact fun _ _ => id
  | files hlimits hroots hcursors hcalls hdisk hread =>
    refine h.mono hstep hlimits hroots hgrows hread ?_ (by simp [hcalls])
    rw [hcursors]
    exact fun _ _ => id
  | branch hsame hidle hcalls hread =>
    refine h.mono hstep hsame.limits hsame.roots hgrows hread ?_ (by simp [hcalls])
    rw [hsame.cursors]
    exact fun _ _ => id
  | @call c hsame hcalls hcall hread =>
    refine h.mono hstep hsame.limits hsame.roots hgrows hread ?_ ?_
    · rw [hsame.cursors]
      exact fun _ _ => id
    · rw [hcalls]
      exact List.Sublist.subset ((List.sublist_cons_self c s'.calls).filterMap _)
  | @wake ask left lost visited hlimits hroots hidle hwoken hasked hwoke hread =>
    have htexts : s'.calls.filterMap LoopCall.text? = visited.filterMap LoopCall.text? := by
      rw [hwoken.calls, List.filterMap_append, List.filterMap_append,
        filterMap_text?_fences hwoken.fences]
      simp [LoopCall.text?]
    obtain ⟨hcursors, rfl⟩ | ⟨path, hnext, hvisited⟩ := hwoken.visit
    · refine h.mono hstep hlimits hroots hgrows (hread.trans htexts) (hcursors ▸ hwoken.kept.sub) ?_
      rw [htexts]
      exact List.nil_subset _
    rw [hnext] at hwoke
    rw [h.limits_eq, h.roots_eq] at hvisited
    have hleft : Intake first.limits.recordBytes s.disk (ReadSince serde first out s) left :=
      h.intake.mono (.refl _) hwoken.kept.sub fun _ _ _ _ _ => id
    have hvisit := hleft.visitPath hasked hvisited
    have hsub : visited ⊆ s'.calls := by
      rw [hwoken.calls]
      exact fun c hc => by simp [hc]
    refine ⟨hlimits.trans h.limits_eq, hroots.trans h.roots_eq, ?_, ?_, ?_⟩
    · intro p file hfile
      obtain ⟨start, read, data, hd⟩ := hvisit p file hfile
      exact ⟨start, read, data, hd.tracks,
        readSince_of_begun hrun hstep hasked hwoke (hread.trans htexts) hsub hfile hd⟩
    · intro text htext
      rw [readBy_append, List.mem_append] at htext
      obtain htext | htext := htext
      · exact (h.lines text htext).mono hgrows fun start hsince => hsince.later hstep
      rw [hread, htexts] at htext
      exact wholeLines_of_visited hrun hstep hasked hwoke (hread.trans htexts) hsub hvisited hvisit
        htext
    · rw [readBy_append, hread]
      exact fun text htext => List.mem_append_right _ htext
  | @maintenance ask hlimits hroots hidle hkept hcalls hasked hread =>
    exact h.mono hstep hlimits hroots hgrows hread hkept.sub (hcalls ▸ List.nil_subset _)

variable {ignoreSpot : Bool} {scope : CoinScope} {disk : Disk} {now : Instant}

theorem run_readerSound
    (h : Run (Step serde Disk.Grows) (starts limits roots ignoreSpot scope disk now) out s) :
    ReaderSound serde (starts limits roots ignoreSpot scope disk now) out s := by
  refine h.invariant (ReaderSound serde _) ?_ fun hrun hs hstep => hs.step hrun hstep
  exact ⟨rfl, rfl, fun path file hf => by simp [starts, start] at hf, by simp [readBy],
    by simp [starts, start]⟩

/-- A file with the line of a block of height 6, and the first file of its source. -/
def blockSixFile : FileSystem where
  disk := ⟨fun path => if path = ["fills", "6"] then some ⟨0, true⟩ else none,
    fun _ => Utf8.bytes (SerdeJson.emptyBlockLine ++ "\n")⟩
  fileMetadata := fun _ => .ok ()
  pathMetadata := fun _ => .ok ()
  opens := fun _ => .ok ()
  read := .ok 128
  now := 0
  later := 0

/-- Room for one path and one cursor. -/
def oneFile : SourceLimits := { SourceLimits.DEFAULT with dirtyFiles := 1 }

def blockSixCursor : OpenFile := ⟨0, (openAt 0 oneFile.recordBytes).withMaxAge oneFile.queueAge⟩

def blockSixText : SourceText :=
  ⟨["fills", "6"], 0, .fills, SerdeJson.emptyBlockLine ++ "\n"⟩

theorem blockSixCursor_readTurn : ∃ next n,
    blockSixCursor.readTurn blockSixFile ["fills", "6"] oneFile.turnBytes =
      (next, .ok (blockSixText.data, true, n)) ∧ next.drained blockSixFile = true :=
  ⟨_, (Utf8.bytes blockSixText.data).length, Prod.ext rfl (by decide +kernel), by decide +kernel⟩

/-- The listener is told of the file. -/
def toldOfBlockSix : HlListen :=
  (starts oneFile [(["fills"], .fills)] true .all blockSixFile.disk 0).watch
    (.event .create [["fills", "6"]])

/-- The file is created under the watch, and read. -/
theorem run_block_six (serde : SerdeJson) : ∃ s next,
    Run (Step serde Disk.Grows) (starts oneFile [(["fills"], .fills)] true .all blockSixFile.disk 0)
      [.woke (some ["fills", "6"]), .read blockSixText] s ∧
    s.cursors.lookup ["fills", "6"] = some next := by
  obtain ⟨next, n, hread, -⟩ := blockSixCursor_readTurn
  have hwatch : Step serde Disk.Grows _ [] toldOfBlockSix := .watch _ _
  have hasked : Asked Disk.Grows toldOfBlockSix.disk (fun _ => blockSixFile) blockSixFile.disk :=
    ⟨fun _ => .refl _, fun _ _ _ => .refl _, fun _ => .refl _⟩
  obtain ⟨cursors, hfile, -, hstep⟩ := wake_created (s := toldOfBlockSix) rfl rfl rfl rfl hasked
    Finmap.notMem_empty (by decide) rfl rfl rfl hread
  exact ⟨_, next, (Run.single hwatch).tail hstep, hfile⟩

/-- The fills of the block are sent. -/
theorem toldOfBlockSix_turn : ∃ after log batch,
    toldOfBlockSix.listener.turn blockSixReader blockSixText.data .fills (fun _ => 0) = some after ∧
    after.internalMessageTx = some log ∧ .fills batch ∈ log := by
  have hturned : ((toldOfBlockSix.listener.turn blockSixReader (SerdeJson.emptyBlockLine ++ "\n")
      .fills fun _ => 0).bind fun after => after.internalMessageTx).map
        InternalMessage.fillHeights = some [6] := by
    simp only [OrderBookListener.turn,
      processData_line SerdeJson.emptyBlockLine (by decide) (by decide +kernel)]
    decide +kernel
  rw [Option.map_eq_some_iff] at hturned
  obtain ⟨log, hlog, hheights⟩ := hturned
  obtain ⟨after, hturn, hsent⟩ := Option.bind_eq_some_iff.mp hlog
  have hsix : 6 ∈ InternalMessage.fillHeights log := by simp [hheights]
  simp only [InternalMessage.fillHeights, List.mem_filterMap] at hsix
  obtain ⟨message, hmem, hsome⟩ := hsix
  cases message <;> simp at hsome
  exact ⟨after, log, _, hturn, hsent, hmem⟩

/-- The line is handed over, and the loop is idle. -/
theorem run_block_six_done : ∃ out s next log batch,
    Run (Step blockSixReader Disk.Grows)
      (starts oneFile [(["fills"], .fills)] true .all blockSixFile.disk 0) out s ∧
    s.cursors.lookup ["fills", "6"] = some next ∧ next.drained blockSixFile = true ∧
    blockSixText ∈ readBy out ∧ s.calls = [] ∧ s.disk = blockSixFile.disk ∧
    s.clock = 0 ∧ s.wake = true ∧ s.listener.internalMessageTx = some log ∧ .fills batch ∈ log := by
  obtain ⟨next, n, hread, hdrained⟩ := blockSixCursor_readTurn
  obtain ⟨after, log, batch, hturn, hsent, hbatch⟩ := toldOfBlockSix_turn
  have hwatch : Step blockSixReader Disk.Grows _ [] toldOfBlockSix := .watch _ _
  have hasked : Asked Disk.Grows toldOfBlockSix.disk (fun _ => blockSixFile) blockSixFile.disk :=
    ⟨fun _ => .refl _, fun _ _ _ => .refl _, fun _ => .refl _⟩
  obtain ⟨cursors, hfile, -, hrun⟩ := run_created (s := toldOfBlockSix) rfl rfl rfl rfl hasked
    Finmap.notMem_empty (by decide) rfl rfl rfl hread hturn
  exact ⟨_, _, next, log, batch, (Run.single hwatch).trans hrun, hfile, hdrained,
    by simp [readBy, blockSixText], rfl, rfl, rfl, rfl, hsent, hbatch⟩

/-- While the files only grow, what was read under a path since its cursor was opened is exactly
the bytes of the file from where the cursor began to where it is, but for the record it is in. It
began at the first byte of the file, or at its end and then the stream was fenced. -/
theorem reads_cover_files
    (h : Run (Step serde Disk.Grows) (starts limits roots ignoreSpot scope disk now) out s)
    {path : PathBuf} {file : OpenFile} (hfile : s.cursors.lookup path = some file) :
    ∃ (start : ℕ) (data : List String),
      ReadSince serde (starts limits roots ignoreSpot scope disk now) out s path file.inode start
        (data.map (Prod.mk file.inode)) ∧
      start ≤ file.cursor.offset ∧ file.cursor.offset ≤ (s.disk.contents file.inode).length ∧
      data.flatMap Utf8.bytes ++ file.cursor.partialBytes =
        ((s.disk.contents file.inode).drop start).take (file.cursor.offset - start) ∧
      newline ∉ file.cursor.partialBytes ∧
      file.cursor.partialBytes.length ≤ limits.recordBytes := by
  obtain ⟨start, read, data, hd⟩ := (run_readerSound h).intake path file hfile
  have htracks := hd.tracks
  have hoffset := htracks.offset
  refine ⟨start, data, hd.begun, by omega, htracks.length_le, ?_, ?_,
    htracks.length_partialBytes_le⟩
  · have hlength : file.cursor.offset - start = read.length := by omega
    rw [htracks.flatMap_bytes, hlength]
    exact (List.prefix_iff_eq_take.mp htracks.sliced)
  · rw [htracks.partialBytes]
    exact notMem_rest List.not_mem_nil

/-- The file has been read. -/
theorem reads_cover_files_block_six : ∃ (out : List Happening) (s : HlListen) (file : OpenFile),
    s.cursors.lookup ["fills", "6"] = some file ∧ blockSixText ∈ readBy out ∧
    ∃ (start : ℕ) (data : List String),
      ReadSince .ofEmptyBlock (starts oneFile [(["fills"], .fills)] true .all blockSixFile.disk 0)
        out s ["fills", "6"] file.inode start (data.map (Prod.mk file.inode)) ∧
      start ≤ file.cursor.offset ∧ file.cursor.offset ≤ (s.disk.contents file.inode).length ∧
      data.flatMap Utf8.bytes ++ file.cursor.partialBytes =
        ((s.disk.contents file.inode).drop start).take (file.cursor.offset - start) ∧
      newline ∉ file.cursor.partialBytes ∧
      file.cursor.partialBytes.length ≤ oneFile.recordBytes := by
  obtain ⟨s, file, hrun, hfile⟩ := run_block_six .ofEmptyBlock
  exact ⟨_, s, file, hfile, by simp [readBy], reads_cover_files hrun hfile⟩

/-- In no step does a cursor go before its file is read to the end, unless the loop fences the
stream before its next branch: what was read since it was opened is all from where it began. -/
theorem cursors_kept_until_read
    (h : Run (Step serde Disk.Grows) (starts limits roots ignoreSpot scope disk now) out s)
    (hstep : Step serde Disk.Grows s more s') {path : PathBuf} {file : OpenFile}
    (hfile : s.cursors.lookup path = some file) :
    Carried s'.cursors path file ∨ .fence ∈ s'.calls ∨
      ∃ (seen : Disk) (start : ℕ) (data : List String), s.disk.Grows seen ∧ seen.Grows s'.disk ∧
        ReadSince serde (starts limits roots ignoreSpot scope disk now) out s path file.inode start
          (data.map (Prod.mk file.inode)) ∧
        data.flatMap Utf8.bytes = (seen.contents file.inode).drop start := by
  obtain ⟨start, read, data, hd⟩ := (run_readerSound h).intake path file hfile
  have hend {ask : FileCall → FileSystem} {c : FileCall}
      (hasked : Asked Disk.Grows s.disk ask s'.disk) (hdrained : file.drained (ask c) = true) :
      ∃ (seen : Disk) (start : ℕ) (data : List String), s.disk.Grows seen ∧ seen.Grows s'.disk ∧
        ReadSince serde (starts limits roots ignoreSpot scope disk now) out s path file.inode start
          (data.map (Prod.mk file.inode)) ∧
        data.flatMap Utf8.bytes = (seen.contents file.inode).drop start := by
    obtain ⟨hwhole, -, hlength⟩ := OpenFile.drained_iff.mp hdrained
    have hgrown := hd.tracks.grow (hasked.since c file.inode)
    exact ⟨_, start, data, hasked.since c, hasked.last c, hd.begun,
      hgrown.flatMap_bytes_of_end hwhole hlength⟩
  cases step_reader hstep with
  | kept hsame => exact .inl (.of_lookup (hsame.cursors ▸ hfile))
  | files _ _ hcursors => exact .inl (.of_lookup (hcursors ▸ hfile))
  | branch hsame => exact .inl (.of_lookup (hsame.cursors ▸ hfile))
  | call hsame => exact .inl (.of_lookup (hsame.cursors ▸ hfile))
  | @wake ask left lost visited _ _ _ hwoken hasked =>
    obtain hleft | hfence | ⟨c, hdrained⟩ := hwoken.kept.dropped path file hfile
    · obtain ⟨hcursors, -⟩ | ⟨visitedPath, -, hvisited⟩ := hwoken.visit
      · exact .inl (.of_lookup (hcursors ▸ hleft))
      obtain hcarried | hfence | ⟨c, hdrained⟩ := carried_visitPath hvisited hleft
      · exact .inl hcarried
      · exact .inr (.inl (by simp [hwoken.calls, hfence]))
      · exact .inr (.inr (hend hasked hdrained))
    · exact .inr (.inl (by simp [hwoken.calls, hfence]))
    · exact .inr (.inr (hend hasked hdrained))
  | @maintenance ask _ _ _ hkept _ hasked =>
    obtain hcarried | hfence | ⟨c, hdrained⟩ := hkept.dropped path file hfile
    · exact .inl (.of_lookup hcarried)
    · exact .inr (.inl hfence)
    · exact .inr (.inr (hend hasked hdrained))

/-- The file of the block is gone from its directory. -/
def blockSixGone : FileSystem :=
  { blockSixFile with disk := ⟨fun _ => none, blockSixFile.disk.contents⟩ }

/-- Its line has been handed over, and the cursor goes without a fence. -/
theorem cursors_kept_until_read_block_six : ∃ (out : List Happening) (s s' : HlListen)
    (file : OpenFile), blockSixText ∈ readBy out ∧
    s.cursors.lookup ["fills", "6"] = some file ∧ s'.cursors.lookup ["fills", "6"] = none ∧
    .fence ∉ s'.calls ∧
    (Carried s'.cursors ["fills", "6"] file ∨ .fence ∈ s'.calls ∨
      ∃ (seen : Disk) (start : ℕ) (data : List String), s.disk.Grows seen ∧ seen.Grows s'.disk ∧
        ReadSince blockSixReader (starts oneFile [(["fills"], .fills)] true .all
          blockSixFile.disk 0) out s ["fills", "6"] file.inode start
          (data.map (Prod.mk file.inode)) ∧
        data.flatMap Utf8.bytes = (seen.contents file.inode).drop start) := by
  obtain ⟨order⟩ := PathOrder.nonempty
  obtain ⟨out, s, file, log, batch, hrun, hfile, hdrained, htext, hidle, hdisk, -⟩ :=
    run_block_six_done
  have hasked : Asked Disk.Grows s.disk (fun _ => blockSixGone) blockSixGone.disk := by
    rw [hdisk]
    exact ⟨fun _ => .refl _, fun _ _ _ => .refl _, fun _ => .refl _⟩
  have hstep : Step blockSixReader Disk.Grows s [] _ :=
    .maintenance order (fun _ => blockSixGone) blockSixGone.disk hidle hasked
  refine ⟨out, s, _, file, htext, hfile, ?_, by simp [maintenanceBranch],
    cursors_kept_until_read hrun hstep hfile⟩
  rw [Option.eq_none_iff_forall_ne_some]
  intro kept hkept
  obtain ⟨hsame, hstays⟩ := Cursors.lookup_retainExisting.mp hkept
  obtain rfl := Option.some.inj (hfile.symm.trans hsame)
  have hgone : file.drained blockSixGone = true := hdrained
  rw [hgone] at hstays
  exact absurd hstays (by decide)

end Sound
end HlListen
end OrderBookServer
