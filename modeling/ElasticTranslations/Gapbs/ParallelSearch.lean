import ElasticTranslations.Gapbs.BfsSearch
import ElasticTranslations.Gapbs.ParallelBottomUp

/-! The whole search with all of its loops on several threads. Who finds a node first may change
its parent, but not the level at which it is found, so every run ends with shortest walks. -/
namespace ElasticTranslations.Gapbs
open Structures

/-- The rounds of `InitParent` in the order in which they come up. Each has its own entry. -/
def parallelInitParent (par : Parallel) (g : CSRGraph) : Option (List ℤ) :=
  (par.shares g.numNodes).flatten.foldlM (fun parent n => initNode g n parent)
    (List.replicate g.numNodes 0)

def parallelClearUnvisited (par : Parallel) (g : CSRGraph) (parent : List ℤ) : Option (List ℤ) :=
  (par.shares g.numNodes).flatten.foldlM (fun parent n => clearNode n parent) parent

/-- The threads of each loop. -/
structure KernelThreads where
  initParent : Parallel
  buStep : Parallel
  tdStep : Parallel
  queueToBitmap : Parallel
  bitmapToQueue : Parallel
  clearUnvisited : Parallel

/-- All loops with a thread for each round. -/
def KernelThreads.oneEach (turns : ℕ → ℕ) : KernelThreads where
  initParent := .oneEach turns
  buStep := .oneEach turns
  tdStep := .oneEach turns
  queueToBitmap := .oneEach turns
  bitmapToQueue := .oneEach turns
  clearUnvisited := .oneEach turns

def Kernel.parallel (threads : KernelThreads) : Kernel where
  initParent := parallelInitParent threads.initParent
  buStep := parallelBuStep threads.buStep
  tdStep := parallelTdStep threads.tdStep
  queueToBitmap := parallelQueueToBitmap threads.queueToBitmap
  bitmapToQueue := parallelBitmapToQueue threads.bitmapToQueue
  clearUnvisited := parallelClearUnvisited threads.clearUnvisited

section Search
variable {g : CSRGraph} {source : ℕ} {alpha beta : ℤ} {fuel : ℕ}

lemma Kernel.ok_parallel (hg : g.Ok) (threads : KernelThreads) :
    (Kernel.parallel threads).Ok g where
  initParent := initNode_fold hg (threads.initParent.shares_perm g.numNodes)
  buStep _ hlen _ _ _ _ hfront hnext := parallelBuStep_spec hg hlen hfront hnext threads.buStep
  tdStep _ hlen _ hqueue := parallelTdStep_spec hg hlen hqueue threads.tdStep
  queueToBitmap _ _ _ _ hqueue hbm :=
    parallelQueueToBitmap_spec hqueue hbm (fun _ hv => (hqueue.mem_window hv).1)
      threads.queueToBitmap
  bitmapToQueue _ _ _ _ hqueue hbm hnew :=
    parallelBitmapToQueue_spec hbm hqueue hnew threads.bitmapToQueue
  clearUnvisited _ hlen := clearNode_fold hlen (threads.clearUnvisited.shares_perm g.numNodes)

/-- On any number of threads, which share each loop and interleave in it as they like, the search
ends and leaves a tree of shortest walks. -/
theorem parallelDobfs_searchTree (hg : g.Ok) (hsource : source < g.numNodes) (halpha : alpha ≠ 0)
    (hbeta : 0 < beta) (hfuel : g.numNodes < fuel) (threads : ℕ → ℕ → KernelThreads) :
    ∃ tree,SearchTree g.Edge source tree ∧
      dobfs (fun i j => .parallel (threads i j)) g source alpha beta fuel =
        some ((List.range g.numNodes).map fun v => encode (tree v)) := by
  have hkernel : ∀ i j,(Kernel.parallel (threads i j)).Ok g := fun i j =>
    Kernel.ok_parallel hg (threads i j)
  exact dobfs_eq hkernel hg hsource halpha hbeta hfuel

theorem parallelDobfs_searchTree_path :
    ∃ tree,SearchTree (CSRGraph.Edge ⟨true,3,2,[0,1,2,2],[1,2],[0,0,1,2],[0,1]⟩) 0 tree ∧
      dobfs (fun _ _ => .parallel (.oneEach id)) ⟨true,3,2,[0,1,2,2],[1,2],[0,0,1,2],[0,1]⟩ 0
          15 18 4 = some ((List.range 3).map fun v => encode (tree v)) :=
  parallelDobfs_searchTree (by decide) (by decide) (by decide) (by decide) (by decide)
    fun _ _ => .oneEach id

end Search

end ElasticTranslations.Gapbs
