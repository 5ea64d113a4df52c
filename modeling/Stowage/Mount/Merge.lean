import Stowage.Mount.Path
import Stowage.Mount.Plan
import Stowage.Order.Sorting

/-!
# Merging mounts

A container mounts one volume at a path, so mounts that meet in a directory become one projected
volume. Only config maps and named secrets can be projected.

1. Mounts of one target become a directory of items, if each can be projected and no key is
   repeated.
2. Every other mount that can be projected is anchored: a keyed one at the parent of its target, a
   whole one at its target. The mounts of one anchor are one point.
3. A point under another is folded into it, if the outer one makes up a directory and the inner one
   has only items. Any other nesting is a conflict.
-/

namespace Stowage
namespace Merge

/-! ## Entries -/

/-- A plan and its place in the order of declaration. -/
structure Entry where
  position : Nat
  plan : Plan
deriving DecidableEq

def entriesFrom : Nat → List Plan → List Entry
  | _, [] => []
  | n, p :: l => ⟨n, p⟩ :: entriesFrom (n + 1) l

namespace Entry

def target (e : Entry) : String := e.plan.mount.path

def subPath (e : Entry) : Option String := e.plan.mount.subPath

def volumeName (e : Entry) : String := e.plan.mount.name

def conflict (e : Entry) (path reason : String) : Fault :=
  ⟨[e.plan.origin.text], .mountConflict path reason⟩

end Entry

/-! ## Members -/

/-- The object behind a volume that can be projected, and the mode of its files. -/
structure Source where
  object : Manifest.ProjectedObject
  mode : Option Int
deriving DecidableEq

def sourceOf? : Manifest.VolumeSource → Option Source
  | .configMap name mode => some ⟨.configMap name, mode⟩
  | .secret (some name) mode => some ⟨.secret name, mode⟩
  | _ => none

/-- A sub path through directories names no key. -/
def Entry.source? (e : Entry) : Option Source :=
  if e.subPath.any (·.toList.contains '/') then none
  else e.plan.volume.bind fun v => sourceOf? v.source

/-- What one mount brings to a projection: some items, or a whole volume. -/
structure Member where
  entry : Entry
  source : Source
  items : Option (List Manifest.Item)
deriving DecidableEq

namespace Member

def isWhole (m : Member) : Bool := m.items.isNone

def isKeyed (m : Member) : Bool := m.items.isSome

def ofKey (e : Entry) (s : Source) (key path : String) : Member :=
  ⟨e, s, some [⟨key, path, s.mode⟩]⟩

def projection (m : Member) : Manifest.Projection := ⟨m.source.object, m.items⟩

/-- Two mounts of one volume, at least one of them whole. -/
def overlaps (m m' : Member) : Bool :=
  m.entry.volumeName == m'.entry.volumeName && (m.isWhole || m'.isWhole)

end Member

def inOrder (l : List Member) : List Member :=
  sortBy (fun a b => a.entry.position ≤ b.entry.position) l

/-! ## Placing -/

/-- Where a mount belongs before nesting is looked at. -/
inductive Placement
  | plain (e : Entry)
  | anchored (anchor : String) (m : Member)
deriving DecidableEq

def placeAlone (e : Entry) : Placement :=
  match e.source?, e.subPath with
  | none, _ => .plain e
  | some s, none => .anchored e.target ⟨e, s, none⟩
  | some s, some key =>
    match Path.parent? e.target.toList with
    | some parent =>
      .anchored (String.ofList parent)
        (.ofKey e s key (String.ofList (Path.baseName e.target.toList)))
    | none => .plain e

def repeatedReason : Option String → String
  | some key => "sub path '" ++ key ++ "' is mounted more than once"
  | none => "the whole volume is mounted more than once"

/-- Places the mounts of a shared target, of which those with the sub paths `seen` came before. -/
def placeShared (target : String) (seen : List (Option String)) :
    List Entry → Except Fault (List Placement)
  | [] => .ok []
  | e :: l =>
    match e.source? with
    | none => .error (e.conflict target "a volume that cannot be projected shares this mount path")
    | some s =>
      if seen.contains e.subPath then .error (e.conflict target (repeatedReason e.subPath))
      else
        let m := match e.subPath with
          | some key => .ofKey e s key key
          | none => ⟨e, s, none⟩
        (placeShared target (e.subPath :: seen) l).map (.anchored target m :: ·)

def placeGroup (target : String) : List Entry → Except Fault (List Placement)
  | [e] => .ok [placeAlone e]
  | l => placeShared target [] l

def targets (es : List Entry) : List String := (es.map Entry.target).eraseDups

def placements (es : List Entry) : Except Fault (List Placement) :=
  ((targets es).mapM fun t => placeGroup t (es.filter (·.target = t))).map List.flatten

/-! ## Points -/

/-- A mount point: a mount kept as it is, or the members that meet in a directory. -/
inductive Point
  | plain (e : Entry)
  | projection (dir : String) (members : List Member)
deriving DecidableEq

namespace Point

def members : Point → List Member
  | plain _ => []
  | projection _ ms => ms

def dir : Point → String
  | plain e => e.target
  | projection d _ => d

/-- A single item stays at its target. -/
def path : Point → String
  | plain e => e.target
  | projection d [m] => if m.isKeyed then m.entry.target else d
  | projection d _ => d

def first? : Point → Option Entry
  | plain e => some e
  | projection _ ms => ms.head?.map Member.entry

def position (p : Point) : Nat := (p.first?.map Entry.position).getD 0

def aggregates : Point → Bool
  | plain _ => false
  | projection _ ms => 1 < ms.length || ms.any Member.isWhole

def isKeyed : Point → Bool
  | plain _ => false
  | projection _ ms => ms.all Member.isKeyed

def conflict (p : Point) (reason : String) : Fault :=
  match p.first? with
  | some e => e.conflict p.path reason
  | none => ⟨[], .mountConflict p.path reason⟩

end Point

def anchoredAt? (anchor : String) : Placement → Option Member
  | .plain _ => none
  | .anchored a m => if a = anchor then some m else none

def anchor? : Placement → Option String
  | .plain _ => none
  | .anchored a _ => some a

def plain? : Placement → Option Point
  | .plain e => some (.plain e)
  | .anchored _ _ => none

def firstOverlap? (earlier : List Member) : List Member → Option Member
  | [] => none
  | m :: l => if earlier.any (m.overlaps ·) then some m else firstOverlap? (earlier ++ [m]) l

def pointAt (ps : List Placement) (anchor : String) : Except Fault Point :=
  let ms := inOrder (ps.filterMap (anchoredAt? anchor))
  match firstOverlap? [] ms with
  | some m => .error (m.entry.conflict anchor
      ("volume '" ++ m.entry.volumeName ++ "' is mounted both whole and by key"))
  | none => .ok (.projection anchor ms)

def anchors (ps : List Placement) : List String := (ps.filterMap anchor?).eraseDups

def points (ps : List Placement) : Except Fault (List Point) :=
  ((anchors ps).mapM (pointAt ps)).map (ps.filterMap plain? ++ ·)

/-! ## Nesting -/

def depth (p : Point) : Nat := Path.depth p.path.toList

/-- Outer points come first, and of equal depth the one declared first. -/
def outward (l : List Point) : List Point :=
  sortBy (fun a b => depth a < depth b || (depth a == depth b && a.position ≤ b.position)) l

def covers (outer inner : Point) : Bool :=
  outer.path = inner.path || Path.isNested inner.path.toList outer.path.toList

/-- The longest path among the points that cover one, the later of two. -/
def outer? (kept : List Point) (p : Point) : Option Point :=
  (kept.filter (covers · p)).foldl (fun best k =>
    match best with
    | some b => if b.path.utf8ByteSize ≤ k.path.utf8ByteSize then some k else some b
    | none => some k) none

def below (way : List Char) (i : Manifest.Item) : Manifest.Item :=
  if way.isEmpty then i else { i with path := String.ofList way ++ "/" ++ i.path }

def shifted (outer p : Point) : List Member :=
  let way := Path.relative p.dir.toList outer.path.toList
  p.members.map fun m => { m with items := m.items.map fun l => l.map (below way) }

def absorb (outer p : Point) : Point :=
  .projection outer.dir (inOrder (outer.members ++ shifted outer p))

/-- Adds a point to those kept so far, none of which lies under it. -/
def addPoint (kept : List Point) (p : Point) : Except Fault (List Point) :=
  match outer? kept p with
  | none => .ok (kept ++ [p])
  | some o =>
    if o.path = p.path then .error (p.conflict "mounted more than once")
    else if o.aggregates && p.isKeyed then
      .ok (kept.map fun k => if k.path = o.path then absorb o p else k)
    else .error (p.conflict ("nested under the mount at '" ++ o.path ++ "'"))

def fold (l : List Point) : Except Fault (List Point) := (outward l).foldlM addPoint []

def byDeclaration (l : List Point) : List Point := sortBy (fun a b => a.position ≤ b.position) l

/-! ## Result -/

def projectedName (container : String) (n : Nat) : String :=
  container ++ "-projected-" ++ toString n

def generated (name path : String) (ms : List Member) : Manifest.Mount × Option Manifest.Volume :=
  (⟨name, path, none, some true⟩, some ⟨name, .projected (ms.map Member.projection)⟩)

def verbatim (e : Entry) : Manifest.Mount × Option Manifest.Volume := (e.plan.mount, e.plan.volume)

/-- The mount of each point with its volume; `n` projected volumes came before. -/
def emit (container : String) (n : Nat) :
    List Point → List (Manifest.Mount × Option Manifest.Volume)
  | [] => []
  | .plain e :: l => verbatim e :: emit container n l
  | .projection _ [m] :: l => verbatim m.entry :: emit container n l
  | .projection d ms :: l => generated (projectedName container n) d ms :: emit container (n + 1) l

structure Result where
  volumes : List Manifest.Volume
  mounts : List Manifest.Mount
deriving DecidableEq

def result (container : String) (l : List Point) : Result :=
  let out := emit container 0 l
  ⟨Manifest.distinctVolumes (out.filterMap Prod.snd), out.map Prod.fst⟩

/-- The points of a container's mounts, in the order of declaration. -/
def finalPoints (plans : List Plan) : Except Fault (List Point) := do
  let ps ← placements (entriesFrom 0 plans)
  let l ← points ps
  let kept ← fold l
  .ok (byDeclaration kept)

/-- Merges the mounts of one container, given in the order of declaration. -/
def mounts (container : String) (plans : List Plan) : Except Fault Result :=
  (finalPoints plans).map (result container)

end Merge
end Stowage
