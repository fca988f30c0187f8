import RioBuild.Castore.WalkTree

namespace RioBuild.Castore

open Lib Nar Nar.Frame List

namespace NarPieces

variable {contents : Digest → Bytes} {p : NarPieces} {ev : WalkEvent} {evs : List WalkEvent}
  {error : Option WalkError}

/-- The bytes of events that are seen `depth` directories down. -/
def render (contents : Digest → Bytes) : Nat → List WalkEvent → Bytes
  | _, [] => []
  | depth, .enterDir name :: evs =>
    entryOpenAt depth name ++ (nodeOpen ++ (directoryOpen ++ render contents (depth + 1) evs))
  | depth, .leaveDir :: evs =>
    nodeClose ++ (entryCloseAt (depth - 1) ++ render contents (depth - 1) evs)
  | depth, .symlink name target :: evs =>
    entryOpenAt depth name ++ (nodeOpen ++ (Frame.symlink target ++ (nodeClose ++
      (entryCloseAt depth ++ render contents depth evs))))
  | depth, .file name digest size executable :: evs =>
    entryOpenAt depth name ++ (nodeOpen ++ (regularHeader executable size ++ (contents digest ++
      (contentsPadding size ++ (nodeClose ++ (entryCloseAt depth ++ render contents depth evs))))))

def rest (contents : Digest → Bytes) (p : NarPieces) : Bytes :=
  match p.pending with
  | none => p.buf ++ render contents p.depth p.walk.1
  | some (digest, size) =>
    contents digest ++ (p.buf ++ (contentsPadding size ++ (nodeClose ++ (entryCloseAt p.depth ++
      render contents p.depth p.walk.1))))

theorem pushEvent_rest (error : Option WalkError) (h : p.pending = none) :
    (p.pushEvent ev).buf ++ rest contents { p.pushEvent ev with walk := (evs, error), buf := [] } =
      p.buf ++ render contents p.depth (ev :: evs) := by
  cases ev <;> simp [pushEvent, rest, render, h]

def Yields (contents : Digest → Bytes) (bytes : Bytes) (error : Option WalkError) :
    Option (Except WalkError (NarPiece × NarPieces)) → Prop
  | none => error = none ∧ bytes = []
  | some (.error e) => error = some e
  | some (.ok (piece, p)) => p.walk.2 = error ∧ bytes = piece.bytes contents ++ p.rest contents

theorem pull_yields (hp : p.pending = none) :
    Yields contents (p.buf ++ render contents p.depth evs) error (pull error evs p) := by
  induction evs generalizing p with
  | nil =>
    unfold pull
    cases error with
    | some e => rfl
    | none =>
      split_ifs with hb
      · exact ⟨rfl, by simp [hb, render]⟩
      · exact ⟨rfl, by simp [NarPiece.bytes, rest, hp]⟩
  | cons ev evs ih =>
    unfold pull
    rw [← pushEvent_rest error hp]
    dsimp only
    split_ifs with hf
    · exact ⟨rfl, rfl⟩
    · have hpe : (p.pushEvent ev).pending = none := by
        simpa using fun hp => hf (.inl hp)
      simpa [rest, hpe] using ih hpe

theorem next_yields (contents : Digest → Bytes) (p : NarPieces) :
    Yields contents (p.rest contents) p.walk.2 p.next := by
  unfold next rest
  cases hp : p.pending with
  | none => exact pull_yields hp
  | some x => exact ⟨rfl, by simp [NarPiece.bytes, rest, closeFile]⟩

theorem items_yields (contents : Digest → Bytes) (p : NarPieces) : p.items.2 = p.walk.2 ∧
    (p.walk.2 = none → p.items.1.flatMap (NarPiece.bytes contents) = p.rest contents) := by
  fun_induction items p with
  | case1 p hn =>
    obtain ⟨he, hr⟩ := hn ▸ next_yields contents p
    exact ⟨he.symm, fun _ => hr.symm⟩
  | case2 p e hn =>
    have he := next_yields contents p
    rw [hn] at he
    refine ⟨he.symm, fun hno => ?_⟩
    cases hno.symm.trans he
  | case3 p piece p' hn r ih =>
    obtain ⟨he, hr⟩ := hn ▸ next_yields contents p
    refine ⟨ih.1.trans he, fun hno => ?_⟩
    rw [flatMap_cons, ih.2 (he.trans hno), hr]

def Backed (contents : Digest → Bytes) : Leaf FileRef → Prop
  | .regular ref _ => UInt64.ofNat (contents ref.1).length = ref.2
  | .symlink _ => True

def NodeBacked (contents : Digest → Bytes) : Nar.Node FileRef → Prop
  | .leaf l => Backed contents l
  | .dir kids => kids.All (fun _ => True) (Backed contents)

def fill (contents : Digest → Bytes) (ref : FileRef) : Bytes := contents ref.1

theorem render_leaf (h : Backed contents l) (depth : Nat) :
    render contents depth (leafEvent name l :: evs) =
      entryOpenAt depth name ++ ((l.map (fill contents)).encode ++ (entryCloseAt depth ++
        render contents depth evs)) := by
  cases l with
  | regular ref executable =>
    have hl : UInt64.ofNat (contents ref.1).length = ref.2 := h
    simp [leafEvent, render, Leaf.map, Leaf.encode, fill, hl]
  | symlink target => simp [leafEvent, render, Leaf.map, Leaf.encode]

theorem render_entryEvents (h : f.All (fun _ => True) (Backed contents))
    (depth : Nat) : render contents (depth + 1) (entryEvents f ++ evs) =
      encodeEntries (f.map (Leaf.map (fill contents))) ++ render contents (depth + 1) evs := by
  induction f generalizing depth evs with
  | nil => rfl
  | leaf name l rest ih =>
    rw [entryEvents, cons_append, render_leaf h.2.1, ih h.2.2]
    simp [Forest.map, encodeEntries, entryOpenAt, entryCloseAt]
  | dir name kids rest ihk ih =>
    rw [entryEvents, cons_append, append_assoc, render, ihk h.2.1, cons_append,
      render, Nat.add_sub_cancel, ih h.2.2]
    simp [Forest.map, encodeEntries, entryOpenAt, entryCloseAt]

theorem render_nodeEvents (h : NodeBacked contents t) :
    render contents 0 (nodeEvents t) = (t.map (fill contents)).encode := by
  cases t with
  | leaf l =>
    rw [nodeEvents, render_leaf h]
    simp [entryOpenAt, entryCloseAt, render, Node.map, Node.encode]
  | dir kids =>
    rw [nodeEvents, render, render_entryEvents h]
    simp [entryOpenAt, entryCloseAt, render, Node.map, Node.encode]

end NarPieces

theorem narPieces_eq (h : RootUnfolds dirs root t) (ht : Walkable maxNodes t)
    (hf : NarPieces.NodeBacked contents t) : (narPieces root dirs maxNodes).2 = none ∧
      (narPieces root dirs maxNodes).1.flatMap (NarPiece.bytes contents) =
        archive (t.map (NarPieces.fill contents)) := by
  unfold narPieces
  rw [walk_rootUnfolds h ht]
  obtain ⟨he, hb⟩ := NarPieces.items_yields contents { walk := (nodeEvents t, none), buf := magic }
  refine ⟨he, (hb rfl).trans ?_⟩
  exact congrArg (magic ++ ·) (NarPieces.render_nodeEvents hf)

end RioBuild.Castore
