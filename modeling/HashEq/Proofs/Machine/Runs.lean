import HashEq.Proofs.Machine.Leafwise

/-!
# Runs as blocks

The walk over a struct stops at some of its fields, and each stop covers the fields up
to the next one. Together the stops cover every field that is not blank, once and in
order. The fields of a run fill its bytes, so comparing or hashing the run as one
block is comparing or hashing its fields one by one.

* `flatMap_leaders`, `exists_leader`, `pairwise_leaders`: what the stops cover;
* `leaders_zipIdx`: how the walk goes on from a field;
* `LaidOut.run`: the run that starts at a field;
* `Run.equal`, `Run.hash`: a run as one block.
-/

namespace HashEq

variable {ε α σ : Type}

theorem conj_filter (p : α → Bool) (check : α → Except ε Bool) (l : List α) :
    conj ((l.filter p).map check) = conj (l.map fun a => if p a then check a else .ok true) := by
  induction l with
  | nil => rfl
  | cons a l ih =>
    rw [List.map_cons, conj_cons, ← ih, List.filter_cons]
    split
    · rw [List.map_cons, conj_cons]
    · rfl

theorem foldlM_filter (p : α → Bool) (step : σ → α → Except ε σ) (l : List α) (state : σ) :
    (l.filter p).foldlM step state =
      l.foldlM (fun state a => if p a then step state a else .ok state) state := by
  induction l generalizing state with
  | nil => rfl
  | cons a l ih =>
    rw [List.foldlM_cons, List.filter_cons]
    split
    · rw [List.foldlM_cons]
      exact bind_congr ih
    · exact ih state

namespace TypeTable

variable {table : TypeTable} {arena : Arena} {ty : TypeId} {e : Entry} {p q seed : Word}

/-! ### What the stops cover -/

/-- The fields from field `i` up to field `stop`. -/
def covered (fields : List Field) (i stop : Nat) : List Field :=
  (fields.drop i).take (stop - i)

theorem covered_single {fields : List Field} {i : Nat} {field : Field} (hi : fields[i]? = some field) :
    covered fields i (i + 1) = [field] := by
  obtain ⟨hlt, hfield⟩ := List.getElem?_eq_some_iff.1 hi
  rw [covered, Nat.add_sub_cancel_left, List.drop_eq_getElem_cons hlt, hfield, List.take_succ_cons,
    List.take_zero]

theorem mem_covered {fields : List Field} {i k stop : Nat} {field : Field}
    (hk : fields[k]? = some field) (hi : i ≤ k) (hstop : k < stop) :
    field ∈ covered fields i stop := by
  refine List.mem_of_getElem? (i := k - i) ?_
  rw [covered, List.getElem?_take_of_lt (by omega), List.getElem?_drop, Nat.add_sub_cancel' hi, hk]

section Stops

variable {next : Nat → Nat} {fields : List Field}
  (hnext : ∀ i field, fields[i]? = some field → field.isBlank = false →
    i < next i ∧ ∀ f ∈ covered fields i (next i), f.isBlank = false)
include hnext

theorem flatMap_leaders_from {k resume : Nat} {rest : List Field} (hrest : fields.drop k = rest) :
    ((leaders next resume (rest.zipIdx k)).flatMap fun stop => covered fields stop.2 (next stop.2)) =
      (fields.drop (max k resume)).filter (!·.isBlank) := by
  induction rest generalizing k resume with
  | nil =>
    have hlength := List.drop_eq_nil_iff.1 hrest
    rw [List.drop_eq_nil_of_le (Nat.le_trans hlength (Nat.le_max_left _ _))]
    rfl
  | cons field rest ih =>
    have hfield : fields[k]? = some field := by
      rw [← List.head?_drop, hrest, List.head?_cons]
    have hrest' : fields.drop (k + 1) = rest := by
      rw [← List.tail_drop, hrest, List.tail_cons]
    rw [List.zipIdx_cons, leaders]
    split
    · next hskip =>
      rw [ih hrest']
      rcases Nat.lt_or_ge k resume with hlt | hge
      · rw [Nat.max_eq_right hlt, Nat.max_eq_right (Nat.le_of_lt hlt)]
      · -- A blank field is passed over.
        have hblank : field.isBlank = true := by
          simpa [Nat.not_lt.2 hge] using hskip
        rw [Nat.max_eq_left (by omega), Nat.max_eq_left hge, hrest, hrest',
          List.filter_cons_of_neg (by rw [hblank]; decide)]
    · next hstop =>
      rw [Bool.or_eq_true, not_or, decide_eq_true_iff, Bool.not_eq_true] at hstop
      obtain ⟨hresume, hblank⟩ := hstop
      obtain ⟨hlt, hcovered⟩ := hnext k field hfield hblank
      -- A stop takes in the fields up to the next one, none of which is blank.
      have hall : (covered fields k (next k)).filter (!·.isBlank) = covered fields k (next k) :=
        List.filter_eq_self.2 fun f hf => by rw [hcovered f hf]; rfl
      rw [List.flatMap_cons, ih hrest', Nat.max_eq_right hlt, Nat.max_eq_left (Nat.not_lt.1 hresume),
        ← List.take_append_drop (next k - k) (fields.drop k), List.filter_append, List.drop_drop,
        Nat.add_sub_cancel' (Nat.le_of_lt hlt)]
      exact congrArg (· ++ _) hall.symm

/-- The stops of a walk cover all fields that are not blank, in order. -/
theorem flatMap_leaders :
    ((leaders next 0 fields.zipIdx).flatMap fun stop => covered fields stop.2 (next stop.2)) =
      fields.filter (!·.isBlank) := by
  rw [flatMap_leaders_from hnext List.drop_zero, Nat.max_self, List.drop_zero]

/-- Fields can be checked stop by stop. -/
theorem conj_leaders (check : Field → Except ε Bool) :
    conj (fields.map fun field => if field.isBlank then .ok true else check field) =
      conj ((leaders next 0 fields.zipIdx).map fun stop =>
        conj ((covered fields stop.2 (next stop.2)).map check)) := by
  rw [← conj_flatMap, ← List.map_flatMap, flatMap_leaders hnext, conj_filter]
  refine conj_map_congr fun field _ => ?_
  cases field.isBlank <;> rfl

/-- A state can be passed through the fields stop by stop. -/
theorem foldlM_leaders (step : σ → Field → Except ε σ) (state : σ) :
    fields.foldlM (fun state field => if field.isBlank then .ok state else step state field) state =
      (leaders next 0 fields.zipIdx).foldlM
        (fun state stop => (covered fields stop.2 (next stop.2)).foldlM step state) state := by
  rw [← foldlM_flatMap, flatMap_leaders hnext, foldlM_filter]
  refine foldlM_congr (fun state field _ => ?_) state
  cases field.isBlank <;> rfl

end Stops

/-! ### The order of the stops -/

section Leaders

variable {next : Nat → Nat} {resume : Nat} {stops : List (Field × Nat)}
  (hnext : ∀ stop ∈ stops, stop.1.isBlank = false → stop.2 < next stop.2)
include hnext

theorem le_of_mem_leaders : ∀ stop ∈ leaders next resume stops, resume ≤ stop.2 := by
  fun_induction leaders next resume stops with
  | case1 => exact List.forall_mem_nil _
  | case2 resume field i rest hskip ih =>
    exact ih fun stop hstop => hnext stop (List.mem_cons_of_mem _ hstop)
  | case3 resume field i rest hstop ih =>
    rw [Bool.or_eq_true, not_or, decide_eq_true_iff, Bool.not_eq_true, Nat.not_lt] at hstop
    have hlt := hnext _ List.mem_cons_self hstop.2
    refine List.forall_mem_cons.2 ⟨hstop.1, fun stop hmem => ?_⟩
    have hle := ih (fun stop hstop => hnext stop (List.mem_cons_of_mem _ hstop)) stop hmem
    exact Nat.le_trans hstop.1 (Nat.le_trans (Nat.le_of_lt hlt) hle)

/-- A stop covers nothing that a later one does. -/
theorem pairwise_leaders : (leaders next resume stops).Pairwise fun a b => next a.2 ≤ b.2 := by
  fun_induction leaders next resume stops with
  | case1 => exact .nil
  | case2 resume field i rest hskip ih =>
    exact ih fun stop hstop => hnext stop (List.mem_cons_of_mem _ hstop)
  | case3 resume field i rest hstop ih =>
    have hrest := fun stop hstop => hnext stop (List.mem_cons_of_mem _ hstop)
    exact .cons (le_of_mem_leaders hrest) (ih hrest)

/-- Every field with a name is covered by a stop. -/
theorem exists_leader (hsorted : stops.Pairwise fun a b => a.2 < b.2) {stop : Field × Nat}
    (hstop : stop ∈ stops) (hblank : stop.1.isBlank = false) (hresume : resume ≤ stop.2) :
    ∃ leader ∈ leaders next resume stops, leader.2 ≤ stop.2 ∧ stop.2 < next leader.2 := by
  fun_induction leaders next resume stops with
  | case1 => cases hstop
  | case2 resume field i rest hskip ih =>
    rcases List.mem_cons.1 hstop with rfl | hmem
    · rw [hblank, Bool.or_false, decide_eq_true_iff] at hskip
      omega
    · exact ih (fun stop hstop => hnext stop (List.mem_cons_of_mem _ hstop))
        (List.pairwise_cons.1 hsorted).2 hmem hresume
  | case3 resume field i rest hgoes ih =>
    rcases List.mem_cons.1 hstop with rfl | hmem
    · exact ⟨_, List.mem_cons_self, Nat.le_refl _, hnext _ List.mem_cons_self hblank⟩
    · obtain ⟨hfirst, hrest⟩ := List.pairwise_cons.1 hsorted
      by_cases hcovered : stop.2 < next i
      · exact ⟨_, List.mem_cons_self, Nat.le_of_lt (hfirst stop hmem), hcovered⟩
      · obtain ⟨leader, hleader, hcovers⟩ := ih
          (fun stop hstop => hnext stop (List.mem_cons_of_mem _ hstop)) hrest hmem
          (Nat.not_lt.1 hcovered)
        exact ⟨leader, List.mem_cons_of_mem _ hleader, hcovers⟩

end Leaders

theorem pairwise_zipIdx (fields : List Field) (n : Nat) :
    (fields.zipIdx n).Pairwise fun a b => a.2 < b.2 := by
  have hindices : (List.range' n fields.length).Pairwise (· < ·) := List.pairwise_lt_range'
  rw [← List.zipIdx_map_snd] at hindices
  exact List.pairwise_map.1 hindices

theorem exists_leader_zipIdx {next : Nat → Nat} {fields : List Field} {field : Field} {i : Nat}
    (hnext : ∀ stop ∈ fields.zipIdx, stop.1.isBlank = false → stop.2 < next stop.2)
    (hi : fields[i]? = some field) (hblank : field.isBlank = false) :
    ∃ leader ∈ leaders next 0 fields.zipIdx, leader.2 ≤ i ∧ i < next leader.2 := by
  have hmem : (field, i) ∈ fields.zipIdx := List.mem_zipIdx_iff_getElem?.2 hi
  exact exists_leader hnext (pairwise_zipIdx fields 0) hmem hblank (Nat.zero_le i)

section Walk

variable {next : Nat → Nat} {fields : List Field} {field : Field} {i resume resume' : Nat}
  {passed stops : List (Field × Nat)}

theorem snd_lt_of_mem_zipIdx {stop : Field × Nat} (h : stop ∈ fields.zipIdx) :
    stop.2 < fields.length :=
  (List.getElem?_eq_some_iff.1 (List.mem_zipIdx_iff_getElem?.1 h)).1

theorem zipIdx_eq_append (hlt : i < fields.length) : fields.zipIdx =
    (fields.take i).zipIdx ++ (fields[i], i) :: (fields.drop (i + 1)).zipIdx (i + 1) := by
  have hfields : fields.take i ++ fields[i] :: fields.drop (i + 1) = fields := by
    rw [← List.drop_eq_getElem_cons hlt, List.take_append_drop]
  have hzip := congrArg List.zipIdx hfields
  rw [List.zipIdx_append, List.zipIdx_cons, List.length_take_of_le (Nat.le_of_lt hlt),
    Nat.zero_add] at hzip
  exact hzip.symm

/-- Nothing before the field at which a walk resumes matters. -/
theorem leaders_append_of_lt (h : ∀ stop ∈ passed, stop.2 < resume) :
    leaders next resume (passed ++ stops) = leaders next resume stops := by
  induction passed with
  | nil => rfl
  | cons stop passed ih =>
    obtain ⟨hlt, hpassed⟩ := List.forall_mem_cons.1 h
    rw [List.cons_append, leaders, if_pos (by rw [decide_eq_true hlt, Bool.true_or]), ih hpassed]

theorem leaders_eq_of_le (h : ∀ stop ∈ stops, resume ≤ stop.2)
    (h' : ∀ stop ∈ stops, resume' ≤ stop.2) :
    leaders next resume stops = leaders next resume' stops := by
  induction stops with
  | nil => rfl
  | cons stop stops ih =>
    obtain ⟨hle, hstops⟩ := List.forall_mem_cons.1 h
    obtain ⟨hle', hstops'⟩ := List.forall_mem_cons.1 h'
    rw [leaders, leaders, ih hstops hstops', decide_eq_false (Nat.not_lt.2 hle),
      decide_eq_false (Nat.not_lt.2 hle')]

theorem leaders_zipIdx_eq_nil (h : fields.length ≤ resume) :
    leaders next resume fields.zipIdx = [] := by
  rw [← List.append_nil fields.zipIdx,
    leaders_append_of_lt fun stop hstop => Nat.lt_of_lt_of_le (snd_lt_of_mem_zipIdx hstop) h]
  rfl

/-- A walk that has come to a field passes over it if it is blank, and else stops there and goes on
    behind what the stop covers. -/
theorem leaders_zipIdx (hi : fields[i]? = some field) (hnext : i < next i) :
    leaders next i fields.zipIdx =
      if field.isBlank then leaders next (i + 1) fields.zipIdx
      else (field, i) :: leaders next (next i) fields.zipIdx := by
  obtain ⟨hlt, rfl⟩ := List.getElem?_eq_some_iff.1 hi
  have hpassed : ∀ stop ∈ (fields.take i).zipIdx, stop.2 < i := fun stop hstop =>
    Nat.lt_of_lt_of_eq (snd_lt_of_mem_zipIdx hstop) (List.length_take_of_le (Nat.le_of_lt hlt))
  have hrest : ∀ stop ∈ (fields.drop (i + 1)).zipIdx (i + 1), i + 1 ≤ stop.2 := fun stop hstop =>
    (List.mem_zipIdx hstop).1
  -- What has been passed, field `i` included, is skipped.
  have hskip : ∀ {resume}, i < resume → leaders next resume fields.zipIdx =
      leaders next resume ((fields.drop (i + 1)).zipIdx (i + 1)) := fun hresume => by
    rw [zipIdx_eq_append hlt, List.append_cons, leaders_append_of_lt]
    refine List.forall_mem_append.2 ⟨fun stop hstop => ?_, List.forall_mem_singleton.2 hresume⟩
    exact Nat.lt_trans (hpassed stop hstop) hresume
  rw [hskip (Nat.lt_succ_self i), hskip hnext, zipIdx_eq_append hlt, leaders_append_of_lt hpassed,
    leaders, decide_eq_false (Nat.lt_irrefl i), Bool.false_or,
    leaders_eq_of_le (fun stop hstop => Nat.le_of_succ_le (hrest stop hstop)) hrest]

end Walk

/-! ### The fields of a run -/

/-- Fields of plain memory that fill `size` bytes of a struct from the start of `first` on. -/
structure Run (table : TypeTable) (e : Entry) (first : Field) (fields : List Field) (size : Word) :
    Prop where
  plain : ∀ field ∈ fields,
    field ∈ e.fields ∧ field.isBlank = false ∧ table.base field.ty = .memory
  contiguous : Contiguous table first.offset.toNat fields (first.offset.toNat + size.toNat)
  le : first.offset.toNat + size.toNat ≤ e.size.toNat

theorem extension_prefix (fits : Word → Bool) (last : Field) (rest : List Field) :
    table.extension fits last rest <+: rest := by
  fun_induction table.extension fits last rest with
  | case1 => exact List.prefix_refl _
  | case2 => exact List.nil_prefix
  | case3 last field rest _ ih => exact (List.prefix_cons_inj field).2 ih

theorem of_mem_extension {fits : Word → Bool} {last field : Field} {rest : List Field}
    (h : field ∈ table.extension fits last rest) :
    field.isBlank = false ∧ table.base field.ty = .memory ∧ fits (table.fieldEnd field) = true := by
  fun_induction table.extension fits last rest with
  | case1 => cases h
  | case2 => cases h
  | case3 last next rest hgoes ih =>
    rcases List.mem_cons.1 h with rfl | h
    · simp only [isMemory, Bool.or_eq_true, Bool.not_eq_true', beq_eq_false_iff_ne, not_or,
        Decidable.not_not, Bool.not_eq_true, Bool.not_eq_false] at hgoes
      exact ⟨hgoes.1.1.2, hgoes.1.2, hgoes.2⟩
    · exact ih h

/-- A run goes on as long as no byte is unused. -/
theorem contiguous_extension {fits : Word → Bool} {last : Field} {rest : List Field}
    (hend : ∀ field ∈ last :: rest,
      (table.fieldEnd field).toNat = field.offset.toNat + (table.sizeOf field.ty).toNat) :
    Contiguous table last.offset.toNat (last :: table.extension fits last rest)
      (table.fieldEnd ((table.extension fits last rest).getLastD last)).toNat := by
  fun_induction table.extension fits last rest with
  | case1 last => exact ⟨rfl, (hend last List.mem_cons_self).symm⟩
  | case2 last => exact ⟨rfl, (hend last List.mem_cons_self).symm⟩
  | case3 last field rest hgoes ih =>
    simp only [isPadded, Bool.or_eq_true, not_or, bne_iff_ne, ne_eq, Decidable.not_not] at hgoes
    refine ⟨rfl, ?_⟩
    rw [← hend last List.mem_cons_self, hgoes.1.1.1, List.getLastD_cons]
    exact ih fun f hf => hend f (List.mem_cons_of_mem _ hf)

/-- Whether a run that starts with field `first` of a struct may end at `stop`. -/
def mayEnd (table : TypeTable) (e : Entry) (first : Field) (stop : Word) : Bool :=
  table.target.minAlignment ≤ 1 || stop - first.offset ≤ guaranteedAlign e.align first.offset

/-- The fields that a run takes in after its first field, which is field `i`. -/
def taken (table : TypeTable) (e : Entry) (first : Field) (i : Nat) : List Field :=
  table.extension (table.mayEnd e first) first (e.fields.drop (i + 1))

theorem memoryRun_of_get (hget : table.get ty = .ok e) {i : Nat} {first : Field}
    (hi : e.fields[i]? = some first) : table.memoryRun ty i =
      ⟨table.fieldEnd ((table.taken e first i).getLastD first) - first.offset,
        i + 1 + (table.taken e first i).length⟩ := by
  have hlt : i < e.fields.length := (List.getElem?_eq_some_iff.1 hi).1
  rw [memoryRun, fields_of_get hget, List.drop_eq_getElem_cons hlt,
    (List.getElem?_eq_some_iff.1 hi).2, alignOf, entry_of_get hget]
  rfl

section Run

variable (h : table.LaidOut e)
include h

theorem LaidOut.toNat_fieldEnd {field : Field} (hf : field ∈ e.fields) :
    (table.fieldEnd field).toNat = field.offset.toNat + (table.sizeOf field.ty).toNat := by
  have hle := h.field_end_le hf
  have hlt := e.size.toNat_lt
  rw [fieldEnd, UInt64.toNat_add, Nat.mod_eq_of_lt (by omega)]

/-- One field of plain memory is a run. -/
theorem LaidOut.run_single {field : Field} (hf : field ∈ e.fields) (hblank : field.isBlank = false)
    (hmemory : table.base field.ty = .memory) :
    Run table e field [field] (table.sizeOf field.ty) where
  plain := List.forall_mem_singleton.2 ⟨hf, hblank, hmemory⟩
  contiguous := ⟨rfl, rfl⟩
  le := h.field_end_le hf

variable (hget : table.get ty = .ok e)
include hget

/-- What a run that starts with a field covers. -/
theorem LaidOut.run {i : Nat} {first : Field} (hi : e.fields[i]? = some first)
    (hblank : first.isBlank = false) (hmemory : table.base first.ty = .memory) :
    i < (table.memoryRun ty i).next ∧ (table.memoryRun ty i).next ≤ e.fields.length ∧
      Run table e first (covered e.fields i (table.memoryRun ty i).next)
        (table.memoryRun ty i).size := by
  have hlt : i < e.fields.length := (List.getElem?_eq_some_iff.1 hi).1
  have hdrop : e.fields.drop i = first :: e.fields.drop (i + 1) := by
    rw [List.drop_eq_getElem_cons hlt, (List.getElem?_eq_some_iff.1 hi).2]
  have hsubset : ∀ field ∈ first :: e.fields.drop (i + 1), field ∈ e.fields := fun field hf =>
    List.mem_of_mem_drop (hdrop ▸ hf)
  have hrun := memoryRun_of_get hget hi
  have hleading : table.taken e first i <+: e.fields.drop (i + 1) := extension_prefix _ first _
  have hmore : ∀ field ∈ table.taken e first i,
      field.isBlank = false ∧ table.base field.ty = .memory := fun field hf =>
    ⟨(of_mem_extension hf).1, (of_mem_extension hf).2.1⟩
  have hcontiguous : Contiguous table first.offset.toNat (first :: table.taken e first i)
      (table.fieldEnd ((table.taken e first i).getLastD first)).toNat :=
    contiguous_extension fun field hf => h.toNat_fieldEnd (hsubset field hf)
  generalize table.taken e first i = more at *
  have hcovered : covered e.fields i (table.memoryRun ty i).next = first :: more := by
    have hlength : i + 1 + more.length - i = more.length + 1 := by omega
    rw [covered, hrun, hlength, hdrop, List.take_succ_cons, ← List.prefix_iff_eq_take.1 hleading]
  have hplain : ∀ field ∈ first :: more,
      field ∈ e.fields ∧ field.isBlank = false ∧ table.base field.ty = .memory := by
    intro field hf
    rcases List.mem_cons.1 hf with rfl | hf
    · exact ⟨List.mem_of_getElem? hi, hblank, hmemory⟩
    · exact ⟨hsubset field (List.mem_cons_of_mem _ (hleading.subset hf)), hmore field hf⟩
  -- The run ends with its last field, and no field ends behind the struct.
  have hlast : more.getLastD first ∈ first :: more := List.getLastD_mem_cons
  have hsize : first.offset.toNat + (table.fieldEnd (more.getLastD first) - first.offset).toNat =
      (table.fieldEnd (more.getLastD first)).toNat := by
    rw [UInt64.toNat_sub_of_le _ _ (UInt64.le_iff_toNat_le.2 hcontiguous.le)]
    exact Nat.add_sub_cancel' hcontiguous.le
  refine ⟨table.lt_memoryRun_next ty i, ?_, ?_⟩
  · have hlength := hleading.length_le
    rw [List.length_drop] at hlength
    rw [hrun]
    dsimp only
    omega
  rw [hcovered, hrun]
  refine ⟨hplain, ?_, ?_⟩
  · rw [hsize]
    exact hcontiguous
  · rw [hsize, h.toNat_fieldEnd (hplain _ hlast).1]
    exact h.field_end_le (hplain _ hlast).1

end Run

/-! ### A run as one block -/

namespace Run

variable {first : Field} {fields : List Field} {size : Word} (hrun : Run table e first fields size)
include hrun

theorem bytesAt (hp : arena.inBounds p e.size.toNat = true) :
    arena.bytesAt (p + first.offset) size.toNat = fields.flatMap fun field =>
      arena.bytesAt (p + field.offset) (table.sizeOf field.ty).toNat := by
  have hbytes := hrun.contiguous.bytesAt rfl (Arena.inBounds_mono hp hrun.le)
  rwa [Nat.add_sub_cancel_left] at hbytes

theorem inBounds (hp : arena.inBounds p e.size.toNat = true) :
    arena.inBounds (p + first.offset) size.toNat = true :=
  Arena.inBounds_add hp hrun.le

variable (h : Lawful table) (hget : table.get ty = .ok e)
include h hget

/-- Comparing a run as one block is comparing its fields. -/
theorem equal (dynamic : TypeId → Word → Word → Except EvalError Bool)
    (hp : arena.inBounds p e.size.toNat = true) (hq : arena.inBounds q e.size.toNat = true) :
    Primitives.memoryEqual arena (p + first.offset) (q + first.offset) size =
      conj (fields.map fun field =>
        Leaves.equalVia table arena dynamic field.ty (p + field.offset) (q + field.offset)) := by
  rw [Primitives.memoryEqual_eq (hrun.inBounds hp) (hrun.inBounds hq) rfl, hrun.bytesAt hp,
    hrun.bytesAt hq, flatMap_beq_flatMap fun field hf => ?_, ← conj_map_ok]
  · refine conj_map_congr fun field hf => ?_
    obtain ⟨hmem, _, hmemory⟩ := hrun.plain field hf
    obtain ⟨e', hget'⟩ := h.field_has hget hmem
    rw [base_of_get hget'] at hmemory
    rw [Leaves.equalVia_memory hget' hmemory, ← sizeOf_of_get hget', Primitives.memoryEqual_eq
      (h.add_field hget hp hmem).2 (h.add_field hget hq hmem).2 rfl]
  · obtain ⟨hmem, _⟩ := hrun.plain field hf
    rw [Arena.length_bytesAt (h.add_field hget hp hmem).2,
      Arena.length_bytesAt (h.add_field hget hq hmem).2]

/-- Hashing a run as one block is hashing its fields. -/
theorem hash (dynamic : TypeId → Word → Word → Except EvalError Word)
    (hp : arena.inBounds p e.size.toNat = true) (seed : Word) :
    Primitives.memoryHash arena (p + first.offset) size seed =
      fields.foldlM (fun seed field =>
        Leaves.hashVia table arena dynamic field.ty (p + field.offset) seed) seed := by
  rw [Primitives.memoryHash_eq (hrun.inBounds hp) rfl, hrun.bytesAt hp, blockHash_flatMap]
  refine (foldlM_eq_foldl (fun seed field hf => ?_) seed).symm
  obtain ⟨hmem, _, hmemory⟩ := hrun.plain field hf
  obtain ⟨e', hget'⟩ := h.field_has hget hmem
  rw [base_of_get hget'] at hmemory
  rw [Leaves.hashVia_memory hget' hmemory, ← sizeOf_of_get hget',
    Primitives.memoryHash_eq (h.add_field hget hp hmem).2 rfl]

end Run

end TypeTable

end HashEq
