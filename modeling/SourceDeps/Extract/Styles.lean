import SourceDeps.Extract.Basic
import SourceDeps.Options

namespace SourceDeps.Extract

namespace Sass

def loadingRules : List String := ["import", "use", "forward"]

def extract (options : SassOptions) (source : Source) : Except Failure Extracted :=
  fromStylesheet .sass (options.surface.getD .scss) (·.paramsOf loadingRules) source

end Sass

namespace Stylus

def loadingRules : List String := ["import", "require"]

def extract (source : Source) : Except Failure Extracted :=
  fromStylesheet .stylus .stylus (·.paramsOf loadingRules) source

end Stylus

end SourceDeps.Extract
