import MatlabDocs.Text.Basic

/-!
# Reserved words and known functions

The words that the token rules treat as keywords, and the functions of the language that
they know by name.
-/

namespace MatlabDocs

def keywords : List Text :=
  List.map String.toList [
    "arguments", "break", "case", "catch", "classdef", "continue", "else", "elseif", "end",
    "enumerated", "events", "for", "global", "if", "methods", "otherwise", "parfor", "persistent",
    "properties", "return", "spmd", "switch", "try", "while"]

def elementaryFunctions : List Text :=
  List.map String.toList [
    "sin", "sind", "sinh", "asin", "asind", "asinh", "cos", "cosd", "cosh", "acos", "acosd",
    "acosh", "tan", "tand", "tanh", "atan", "atand", "atan2", "atan2d", "atanh", "sec", "secd",
    "sech", "asec", "asecd", "asech", "csc", "cscd", "csch", "acsc", "acscd", "acsch", "cot",
    "cotd", "coth", "acot", "acotd", "acoth", "hypot", "deg2rad", "rad2deg", "exp", "expm1", "log",
    "log1p", "log10", "log2", "pow2", "realpow", "reallog", "realsqrt", "sqrt", "nthroot",
    "nextpow2", "abs", "angle", "complex", "conj", "imag", "real", "unwrap", "isreal", "cplxpair",
    "fix", "floor", "ceil", "round", "mod", "rem", "sign"]

def specialFunctions : List Text :=
  List.map String.toList [
    "airy", "besselj", "bessely", "besselh", "besseli", "besselk", "beta", "betainc", "betaincinv",
    "betaln", "ellipj", "ellipke", "erf", "erfc", "erfcx", "erfinv", "erfcinv", "expint", "gamma",
    "gammainc", "gammaincinv", "gammaln", "psi", "legendre", "cross", "dot", "factor", "isprime",
    "primes", "gcd", "lcm", "rat", "rats", "perms", "nchoosek", "factorial", "cart2sph",
    "cart2pol", "pol2cart", "sph2cart", "hsv2rgb", "rgb2hsv"]

def matrixFunctions : List Text :=
  List.map String.toList [
    "zeros", "ones", "eye", "repmat", "repelem", "linspace", "logspace", "freqspace", "meshgrid",
    "accumarray", "size", "length", "ndims", "numel", "disp", "isempty", "isequal", "isequaln",
    "cat", "reshape", "diag", "blkdiag", "tril", "triu", "fliplr", "flipud", "flip", "rot90",
    "find", "end", "sub2ind", "ind2sub", "bsxfun", "ndgrid", "permute", "ipermute", "shiftdim",
    "circshift", "squeeze", "isscalar", "isvector", "isrow", "iscolumn", "ismatrix", "eps",
    "realmax", "realmin", "intmax", "intmin", "flintmax", "pi", "i", "inf", "nan", "isnan",
    "isinf", "isfinite", "j", "true", "false", "compan", "gallery", "hadamard", "hankel", "hilb",
    "invhilb", "magic", "pascal", "rosser", "toeplitz", "vander", "wilkinson"]

def isBuiltin (word : Text) : Bool :=
  elementaryFunctions.contains word || specialFunctions.contains word ||
    matrixFunctions.contains word

end MatlabDocs
