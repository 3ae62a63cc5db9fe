import ModuleLoader.Host.Value
import ModuleLoader.PathMap

/-! The modules that a host knows: those that are evaluated and those that are being evaluated. -/

namespace ModuleLoader

structure Registry where
  cache : PathMap Value
  /-- The `module` objects of modules under evaluation. -/
  loading : PathMap Value
  /-- The evaluated modules in the order in which they were completed. -/
  loaded : List Path

namespace Registry

def empty : Registry := ⟨PathMap.empty, PathMap.empty, []⟩

def isCached (r : Registry) (p : Path) : Bool := r.cache.contains p

def isLoading (r : Registry) (p : Path) : Bool := r.loading.contains p

def beginLoading (r : Registry) (p : Path) (module : Value) : Registry :=
  { r with loading := r.loading.insert p module }

def endLoading (r : Registry) (p : Path) : Registry := { r with loading := r.loading.erase p }

def addLoaded (r : Registry) (p : Path) : Registry := { r with loaded := r.loaded ++ [p] }

def complete (r : Registry) (p : Path) (exports : Value) : Registry :=
  { r.addLoaded p with cache := r.cache.insert p exports }

end Registry

end ModuleLoader
